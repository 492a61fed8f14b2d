import CooklangSync.Theory.Outcome
import CooklangSync.Theory.PathText
import CooklangSync.Theory.PathTree

/-!
# ChunkId — where the server keeps a chunk

A chunk is a file below the upload directory, two directories down, which are named after the first
two characters of its id.  The empty id is the chunk of a file without content, and needs no file.
-/

namespace CooklangSync.Server

open Theory

namespace ChunkId

variable {ε : Type} (root : Path Name)

-- `&id[0..1]` and `&id[1..2]`, which panic inside a character of more than one byte.
def firstTwo : Text → Outcome ε (Char × Char)
  | c :: d :: _ => if c.utf8Size = 1 ∧ d.utf8Size = 1 then .ok (c, d) else .panic
  | _ => .panic

/-- The path of the chunk in the upload directory. -/
def filePath (id : Text) : Outcome ε (Path Name) :=
  if (toUtf8 id).length < 2 then
    pure ((root.push (parsePath "null".toList)).push (parsePath id))
  else do
    let (first, second) ← firstTwo id
    pure (((root.push (parsePath [first])).push (parsePath [second])).push (parsePath id))

/-- `pathExists` is the test of the file system, which a directory passes too. -/
def isPresent (pathExists : Path Name → Bool) (id : Text) : Outcome ε Bool :=
  if id = [] then pure true
  else do
    let path ← filePath root id
    pure (pathExists path)

/-- The ids that are admitted as a segment of a request path. -/
def fromParam (param : Text) : Except Text Text :=
  if param.all Char.isAlphanum then .ok param else .error param

/-! ## Ids of letters and digits -/

theorem fromParam_eq_ok_iff {param id : Text} :
    fromParam param = .ok id ↔ Alphanumeric param ∧ param = id := by
  rw [fromParam, Alphanumeric, ← List.all_eq_true]
  by_cases hall : param.all Char.isAlphanum = true
  · rw [if_pos hall]
    simp [hall]
  · rw [if_neg hall]
    simp [hall]

theorem parsePath_of_alphanumeric {id : Text} (h : Alphanumeric id) (hne : id ≠ []) :
    parsePath id = { absolute := false, comps := [.normal (toUtf8 id)], trailing := false } := by
  have hslash : '/' ∉ id := h.not_mem_char (by decide)
  have hdot : ∀ t : Text, t ≠ [] → (∀ c ∈ t, c = '.') → id ≠ t := by
    intro t ht hall heq
    obtain ⟨c, t, rfl⟩ := List.exists_cons_of_ne_nil ht
    have hc := hall c List.mem_cons_self
    exact h.not_mem_char (c := '.') (by decide) (by rw [heq, ← hc]; exact List.mem_cons_self)
  have hone := hdot ['.'] (by simp) (by simp)
  have htwo := hdot ['.', '.'] (by simp) (by simp)
  have hhead : id.head? ≠ some '/' := fun heq ↦ hslash (List.mem_of_head? heq)
  rw [parsePath, List.splitOn_eq_singleton hslash]
  simp [hne, hone, htwo, hhead]

theorem push_of_alphanumeric (base : Path Name) {t : Text} (h : Alphanumeric t) (hne : t ≠ []) :
    base.push (parsePath t) = base.below [toUtf8 t] := by
  rw [parsePath_of_alphanumeric h hne]
  rfl

/-- The directories between the upload directory and the chunk. -/
def shardOf : Text → List Name
  | c :: d :: _ => [toUtf8 [c], toUtf8 [d]]
  | _ => [toUtf8 "null".toList]

theorem filePath_eq_below {id : Text} (h : Alphanumeric id) (hne : id ≠ []) :
    (filePath root id : Outcome ε _) = .ok (root.below (shardOf id ++ [toUtf8 id])) := by
  have hsize : ∀ e ∈ id, e.utf8Size = 1 := by
    intro e he
    rw [← String.length_utf8EncodeChar, utf8EncodeChar_of_isAlphanum (h e he)]
    rfl
  match id, h, hne, hsize with
  | [c], h, hne, hsize =>
    have hlen : (toUtf8 [c]).length < 2 := by
      rw [toUtf8_cons, utf8EncodeChar_of_isAlphanum (h c (by simp))]
      exact Nat.one_lt_two
    rw [filePath, if_pos hlen, push_of_alphanumeric root (by decide) (by decide),
      push_of_alphanumeric _ h hne, Path.below_below]
    rfl
  | c :: d :: rest, h, hne, hsize =>
    have hlen : ¬ (toUtf8 (c :: d :: rest)).length < 2 := by
      rw [toUtf8_cons, toUtf8_cons, utf8EncodeChar_of_isAlphanum (h c (by simp)),
        utf8EncodeChar_of_isAlphanum (h d (by simp))]
      simp
    have hone : ∀ e ∈ c :: d :: rest, Alphanumeric [e] := by
      intro e he e' he'
      rw [List.mem_singleton.mp he']
      exact h e he
    have htwo : (firstTwo (c :: d :: rest) : Outcome ε _) = .ok (c, d) :=
      if_pos ⟨hsize c (by simp), hsize d (by simp)⟩
    rw [filePath, if_neg hlen, htwo, Outcome.ok_bind]
    dsimp only
    rw [push_of_alphanumeric root (hone c (by simp)) (by simp),
      push_of_alphanumeric _ (hone d (by simp)) (by simp), push_of_alphanumeric _ h hne,
      Path.below_below, Path.below_below]
    rfl

/-- Such an id has a path, whose last name is the id. -/
theorem filePath_of_alphanumeric {id : Text} (h : Alphanumeric id) (hne : id ≠ []) :
    ∃ path : Path Name, (filePath root id : Outcome ε _) = .ok path ∧
      path.fileName = some (toUtf8 id) := by
  refine ⟨_, filePath_eq_below root h hne, ?_⟩
  rw [Path.fileName, Path.below, List.map_append, List.map_singleton, ← List.append_assoc,
    List.getLast?_concat]

/-- The names of one chunk are not the beginning of those of another. -/
theorem eq_of_names_prefix {id id' : Text}
    (h : shardOf id ++ [toUtf8 id] <+: shardOf id' ++ [toUtf8 id']) : id = id' := by
  have hshard : ∀ t : Text, shardOf t = [toUtf8 "null".toList] ∨
      ∃ c d, shardOf t = [toUtf8 [c], toUtf8 [d]] := by
    intro t
    match t with
    | [] => exact .inl rfl
    | [_] => exact .inl rfl
    | c :: d :: _ => exact .inr ⟨c, d, rfl⟩
  have hlast : (shardOf id).length = (shardOf id').length → id = id' := by
    intro hlen
    have heq := h.eq_of_length (by rw [List.length_append, List.length_append, hlen]; rfl)
    exact toUtf8_injective (List.singleton_inj.mp (List.append_inj_right heq hlen))
  rcases hshard id with hid | ⟨c, d, hid⟩
  · rcases hshard id' with hid' | ⟨c', d', hid'⟩
    · exact hlast (by rw [hid, hid'])
    · -- a shard of ids with one character more is named after one character
      rw [hid, hid', List.singleton_append, List.cons_append, List.cons_prefix_cons] at h
      have hnull := toUtf8_injective h.1
      cases hnull
  · rcases hshard id' with hid' | ⟨c', d', hid'⟩
    · have hlen := h.length_le
      rw [hid, hid'] at hlen
      exact absurd hlen (by simp)
    · exact hlast (by rw [hid, hid']; rfl)

/-- No two of them share a path. -/
theorem filePath_injective {id id' : Text} (h : Alphanumeric id) (h' : Alphanumeric id')
    (hne : id ≠ []) (hne' : id' ≠ [])
    (heq : (filePath root id : Outcome ε _) = filePath root id') : id = id' := by
  rw [filePath_eq_below root h hne, filePath_eq_below root h' hne', Outcome.ok.injEq] at heq
  exact eq_of_names_prefix (Path.below_injective root heq ▸ List.prefix_rfl)

end ChunkId

end CooklangSync.Server
