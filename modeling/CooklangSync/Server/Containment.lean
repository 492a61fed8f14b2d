import CooklangSync.Server.Uploads
import CooklangSync.Theory.Lexical

/-!
# Containment — chunk ids and the upload directory

`ChunkId::file_path` joins text of a request to the upload directory three times: the first
character of the id, the second one, and the id.  The retrieve route alone admits only letters and
digits; everywhere else the id is any text (`filePath_inside_iff` says which ones stay inside).
-/

namespace CooklangSync.Server

open Theory

namespace ChunkId

variable {ε : Type}

/-! ## 1. Where an id is joined -/

/-- Joining one character: a separator starts from the root again, a dot stays. -/
def joinChar (k : Place Name) (c : Char) : Place Name :=
  if c = '/' then [] else if c = '.' then k else toUtf8 [c] :: k

/-- The directory an id is joined to, if it is not absolute itself. -/
def directoryOf (root : Place Name) : Text → Place Name
  | c :: d :: _ => joinChar (joinChar root c) d
  | _ => toUtf8 "null".toList :: root

/-- The characters that `file_path` cuts off the id are one byte each. -/
def HasOneByteHead : Text → Prop
  | c :: d :: _ => c.utf8Size = 1 ∧ d.utf8Size = 1
  | [c] => c.utf8Size = 1
  | [] => True

instance : (id : Text) → Decidable (HasOneByteHead id)
  | _ :: _ :: _ => inferInstanceAs (Decidable (_ ∧ _))
  | [_] => inferInstanceAs (Decidable (_ = _))
  | [] => .isTrue trivial

/-- The components of the id, from the directory it is joined to, end below the root. -/
def LeadsInside (root : Place Name) (id : Text) : Prop :=
  Below root (follow (if id.head? = some '/' then [] else directoryOf root id) (parsePath id).comps)

instance (root : Place Name) (id : Text) : Decidable (LeadsInside root id) :=
  inferInstanceAs (Decidable (Below _ _))

/-- The id has a path, and it lies strictly inside the upload directory. -/
def IsInside (ε : Type) (cwd : Place Name) (root : Path Name) (id : Text) : Prop :=
  ∃ path, (filePath root id : Outcome ε _) = .ok path ∧
    Below (root.placeFrom cwd) (path.placeFrom cwd)

theorem absolute_parsePath (path : Text) :
    (parsePath path).absolute = true ↔ path.head? = some '/' := decide_eq_true_iff

theorem comps_parsePath_singleton (c : Char) :
    (parsePath [c]).comps = if c = '/' ∨ c = '.' then [] else [.normal (toUtf8 [c])] := by
  by_cases hslash : c = '/'
  · rw [hslash]
    rfl
  · have hsplit : [c].splitOn '/' = [[c]] :=
      List.splitOn_eq_singleton (by simpa using Ne.symm hslash)
    rw [parsePath, hsplit]
    by_cases hdot : c = '.'
    · rw [hdot]
      rfl
    · simp [hslash, hdot]

/-- The place of a joined path. -/
theorem placeFrom_push (cwd : Place Name) (base : Path Name) (path : Text) :
    (base.push (parsePath path)).placeFrom cwd =
      follow (if path.head? = some '/' then [] else base.placeFrom cwd) (parsePath path).comps := by
  rw [Path.push]
  by_cases habsolute : (parsePath path).absolute = true
  · rw [if_pos habsolute, if_pos ((absolute_parsePath path).mp habsolute), Path.placeFrom,
      if_pos habsolute]
  · rw [if_neg habsolute, if_neg (mt (absolute_parsePath path).mpr habsolute), Path.placeFrom,
      Path.placeFrom, follow_append]

theorem placeFrom_push_char (cwd : Place Name) (base : Path Name) (c : Char) :
    (base.push (parsePath [c])).placeFrom cwd = joinChar (base.placeFrom cwd) c := by
  rw [placeFrom_push, comps_parsePath_singleton, joinChar]
  by_cases hslash : c = '/'
  · simp [hslash, follow]
  · by_cases hdot : c = '.'
    · simp [hdot, follow]
    · simp [hslash, hdot, follow]

theorem length_toUtf8_cons (c : Char) (t : Text) :
    (toUtf8 (c :: t)).length = c.utf8Size + (toUtf8 t).length := by
  rw [toUtf8_cons, List.length_append, String.length_utf8EncodeChar]

/-- The path of an id, by its place: there is none when one of the first two characters is longer
than a byte. -/
theorem filePath_spec (cwd : Place Name) (root : Path Name) (id : Text) :
    (HasOneByteHead id → ∃ path, (filePath root id : Outcome ε _) = .ok path ∧
      path.placeFrom cwd = follow (if id.head? = some '/' then []
        else directoryOf (root.placeFrom cwd) id) (parsePath id).comps) ∧
    (¬ HasOneByteHead id → (filePath root id : Outcome ε _) = .panic) := by
  have hnull : (root.push (parsePath "null".toList)).placeFrom cwd =
      toUtf8 "null".toList :: root.placeFrom cwd := placeFrom_push cwd root "null".toList
  match id with
  | [] =>
    refine ⟨fun _ ↦ ⟨_, rfl, ?_⟩, fun h ↦ absurd trivial h⟩
    rw [placeFrom_push, hnull]
    rfl
  | [c] =>
    have hpos := Char.utf8Size_pos c
    have hlen := length_toUtf8_cons c []
    rw [toUtf8_nil, List.length_nil, Nat.add_zero] at hlen
    unfold filePath
    constructor
    · intro hone
      have hone : c.utf8Size = 1 := hone
      rw [if_pos (by omega)]
      refine ⟨_, rfl, ?_⟩
      rw [placeFrom_push, hnull]
      rfl
    · intro hmore
      have hmore : c.utf8Size ≠ 1 := hmore
      rw [if_neg (by omega)]
      rfl
  | c :: d :: rest =>
    have hc := Char.utf8Size_pos c
    have hd := Char.utf8Size_pos d
    have hlen := length_toUtf8_cons c (d :: rest)
    have hlen' := length_toUtf8_cons d rest
    unfold filePath
    rw [if_neg (by omega), firstTwo]
    constructor
    · intro hone
      have hone : c.utf8Size = 1 ∧ d.utf8Size = 1 := hone
      rw [if_pos hone]
      refine ⟨_, rfl, ?_⟩
      rw [placeFrom_push, placeFrom_push_char, placeFrom_push_char]
      rfl
    · intro hmore
      have hmore : ¬ (c.utf8Size = 1 ∧ d.utf8Size = 1) := hmore
      rw [if_neg hmore]
      rfl

/-! ## 2. Which ids stay inside -/

/-- An id stays inside the upload directory exactly when its first two characters are one byte each
and its components lead back below the root from where they start. -/
theorem filePath_inside_iff (cwd : Place Name) (root : Path Name) (id : Text) :
    IsInside ε cwd root id ↔ HasOneByteHead id ∧ LeadsInside (root.placeFrom cwd) id := by
  have hspec := @filePath_spec ε cwd root id
  by_cases hone : HasOneByteHead id
  · obtain ⟨path, hpath, hplace⟩ := hspec.1 hone
    rw [LeadsInside, ← hplace]
    constructor
    · rintro ⟨path', hpath', hbelow⟩
      rw [hpath, Outcome.ok.injEq] at hpath'
      rw [hpath']
      exact ⟨hone, hbelow⟩
    · rintro ⟨-, hbelow⟩
      exact ⟨path, hpath, hbelow⟩
  · have hpanic := hspec.2 hone
    constructor
    · rintro ⟨path, hpath, -⟩
      rw [hpanic] at hpath
      cases hpath
    · rintro ⟨hone', -⟩
      exact absurd hone' hone

-- A field, form value or piece of a commit named like a file elsewhere is that file.
theorem filePath_escapes :
    ¬ ∀ (cwd : Place Name) (root : Path Name) (id : Text), id ≠ [] → IsInside Unit cwd root id := by
  intro h
  obtain ⟨path, hpath, hbelow⟩ := h [] uploadDir "/etc/passwd".toList (by decide)
  have hplace : (filePath uploadDir "/etc/passwd".toList : Outcome Unit _) =
      .ok (parsePath "/etc/passwd".toList) := by decide
  rw [hplace, Outcome.ok.injEq] at hpath
  rw [← hpath] at hbelow
  exact absurd hbelow (by decide)

/-- What is neither a separator nor the parent directory cannot lead out. -/
theorem leadsInside_of_not_mem (root : Place Name) {id : Text} (hslash : '/' ∉ id)
    (hdots : id ≠ ['.', '.']) : LeadsInside root id := by
  have hhead : id.head? ≠ some '/' := fun h ↦ hslash (List.mem_of_head? h)
  have hjoin : ∀ k c, c ≠ '/' → k <:+ joinChar k c := by
    intro k c hc
    rw [joinChar, if_neg hc]
    split
    · exact List.suffix_rfl
    · exact List.suffix_cons _ _
  have hdirectory : root <:+ directoryOf root id := by
    match id, hslash with
    | [], _ => exact List.suffix_cons _ _
    | [c], _ => exact List.suffix_cons _ _
    | c :: d :: rest, hslash =>
      rw [List.mem_cons, List.mem_cons, not_or, not_or] at hslash
      exact (hjoin root c (Ne.symm hslash.1)).trans (hjoin _ d (Ne.symm hslash.2.1))
  rw [LeadsInside, if_neg hhead]
  by_cases hstay : id = [] ∨ id = ['.']
  · -- `null`, the directory of the short ids
    have hnull : follow (directoryOf root id) (parsePath id).comps =
        toUtf8 "null".toList :: root := by
      rcases hstay with rfl | rfl <;> rfl
    rw [hnull]
    exact ⟨List.suffix_cons _ _, fun heq ↦ List.cons_ne_self _ _ heq⟩
  · have hcomps : (parsePath id).comps = [.normal (toUtf8 id)] := by
      rw [parsePath, List.splitOn_eq_singleton hslash]
      simp [hstay, hdots]
    rw [hcomps]
    refine ⟨hdirectory.trans (List.suffix_cons _ _), fun heq ↦ ?_⟩
    have hlen := hdirectory.length_le
    have hlen' := congrArg List.length heq
    change (toUtf8 id :: directoryOf root id).length = root.length at hlen'
    rw [List.length_cons] at hlen'
    omega

end ChunkId

/-! ## 3. Requests -/

/-- The ids of a download request with their paths. -/
def chunkPaths {ε : Type} (root : Path Name) : List Text → Outcome ε (List (Text × Path Name))
  | [] => pure []
  | id :: ids => do
    let path ← ChunkId.filePath root id
    let rest ← chunkPaths root ids
    pure ((id, path) :: rest)

-- Every value of the form is taken for an id, whatever its key; a malformed form has none.
def requestedChunks {ε : Type} (parseForm : Text → Option (List (Text × Text))) (root : Path Name)
    (body : Text) : Outcome ε (List (Text × Path Name)) :=
  chunkPaths root (((parseForm body).getD []).map Prod.snd)

section Requests

variable (cwd : Place Name) (root : Path Name)

/-- A download request whose ids stay inside reads inside. -/
theorem requestedChunks_inside {ε : Type} (parseForm : Text → Option (List (Text × Text)))
    (body : Text)
    (hids : ∀ pair ∈ (parseForm body).getD [], ChunkId.IsInside ε cwd root pair.2) :
    ∃ items, (requestedChunks parseForm root body : Outcome ε _) = .ok items ∧
      ∀ item ∈ items, Below (root.placeFrom cwd) (item.2.placeFrom cwd) := by
  have hall : ∀ ids : List Text, (∀ id ∈ ids, ChunkId.IsInside ε cwd root id) →
      ∃ items, (chunkPaths root ids : Outcome ε _) = .ok items ∧
        ∀ item ∈ items, Below (root.placeFrom cwd) (item.2.placeFrom cwd) := by
    intro ids hids
    induction ids with
    | nil => exact ⟨[], rfl, by simp⟩
    | cons id ids ih =>
      obtain ⟨path, hpath, hbelow⟩ := hids id List.mem_cons_self
      obtain ⟨items, hitems, hrest⟩ := ih fun i hi ↦ hids i (List.mem_cons_of_mem id hi)
      refine ⟨(id, path) :: items, ?_, List.forall_mem_cons.mpr ⟨hbelow, hrest⟩⟩
      rw [chunkPaths, hpath, hitems]
      rfl
  apply hall
  intro id hid
  obtain ⟨pair, hpair, rfl⟩ := List.mem_map.mp hid
  exact hids pair hpair

/-- A commit whose ids stay inside looks for them inside. -/
theorem isPresent_inside {ε : Type} {pathExists pathExists' : Path Name → Bool}
    (hsame : ∀ path, Below (root.placeFrom cwd) (path.placeFrom cwd) →
      pathExists path = pathExists' path)
    {id : Text} (hid : ChunkId.IsInside ε cwd root id) :
    (ChunkId.isPresent root pathExists id : Outcome ε _) = ChunkId.isPresent root pathExists' id := by
  obtain ⟨path, hpath, hbelow⟩ := hid
  rw [ChunkId.isPresent, ChunkId.isPresent, hpath, Outcome.ok_bind, Outcome.ok_bind,
    hsame path hbelow]

variable {env : DiskEnv} {i : Nat} {q : Place Name}

/-- An upload whose fields stay inside changes no file outside, whatever comes of it, unless an
earlier write to it is still under way. -/
theorem uploadChunks_inside (parseBoundary : Text → Option Text) (multer : Text → Body → Delivery)
    (contentType : Text) (upload : Body) (disk : Disk (Place Name))
    (hfields : ∀ boundary, let d := multer boundary (cappedDataStream dataFormLimit 0 upload)
      ∀ part, part ∈ d.parts ∨ d.ending = .inContent part → ∀ name, part.name = some name →
        name ≠ [] → ChunkId.IsInside ChunkError cwd root name)
    (hq : ¬ Below (root.placeFrom cwd) q) (hquiet : disk.IsQuiet q) :
    (uploadChunks root (·.placeFrom cwd) parseBoundary multer env contentType upload
        disk).1.files.read q = disk.files.read q := by
  unfold uploadChunks receiveUpload
  split
  · cases parseBoundary contentType with
    | none => rfl
    | some boundary =>
      have hfile : ∀ part, part ∈ (multer boundary (cappedDataStream dataFormLimit 0 upload)).parts ∨
          (multer boundary (cappedDataStream dataFormLimit 0 upload)).ending = .inContent part →
          part.file root (·.placeFrom cwd) ≠ some q := by
        intro part hpart heq
        obtain ⟨name, path, hname, hne, hpath, rfl⟩ := Part.file_eq_some root _ heq
        obtain ⟨path', hpath', hbelow⟩ := hfields boundary part hpart name hname hne
        rw [hpath, Outcome.ok.injEq] at hpath'
        exact hq (hpath' ▸ hbelow)
      refine (receiveParts_preserves root _
        (I := fun disk' ↦ disk'.IsQuiet q ∧ disk'.files.read q = disk.files.read q)
        (fun part hpart i disk' cut h ↦ ?_) (fun disk' h ↦ ?_) ⟨hquiet, rfl⟩).2
      · obtain ⟨hstill, hread⟩ := receivePart_read_of_ne root _ cut h.1 (hfile part hpart)
        exact ⟨hstill, hread.trans h.2⟩
      · exact ⟨h.1.land.1, h.1.land.2.trans h.2⟩
  · rfl

end Requests

end CooklangSync.Server
