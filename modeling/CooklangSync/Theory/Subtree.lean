import CooklangSync.Theory.FileSystem

/-!
# Subtree — the entries below a directory, and the directories a removal empties

A path may lead to a directory through links and parents, as long as it does so whatever lies below
the directory.  Below it the names spell the places.  When an entry is removed, the directories
above it that held nothing else can be removed as well, from the innermost on.
-/

namespace CooklangSync.Theory.FileTree

variable {N F : Type} [DecidableEq N]

/-! ## 1. Paths that lead to a directory -/

/-- The place lies strictly below the other. -/
def IsBelow (base s : Place N) : Prop := base <:+ s ∧ s ≠ base

/-- The path names the directory, and would do so if other entries lay below it. -/
structure LeadsTo (t : FileTree N F) (path : Path N) (base : Place N) : Prop where
  isDir : t.lookup base = some .dir
  resolve : ∀ t' : FileTree N F, (∀ s, ¬ IsBelow base s → t'.lookup s = t.lookup s) →
    t'.resolve true path = .found base

omit [DecidableEq N] in
theorem not_isBelow_self (base : Place N) : ¬ IsBelow base base := fun h ↦ h.2 rfl

omit [DecidableEq N] in
theorem isBelow_cons {base : Place N} (n : N) {k : Place N} (h : base <:+ k) :
    IsBelow base (n :: k) := by
  refine ⟨h.trans (List.suffix_cons n k), ?_⟩
  intro heq
  have hlen := h.length_le
  rw [← heq, List.length_cons] at hlen
  omega

omit [DecidableEq N] in
theorem suffix_of_cons_suffix {n m : N} {k l : Place N} (h : n :: k <:+ m :: l) : k <:+ l := by
  rcases List.suffix_cons_iff.mp h with heq | h
  · rw [(List.cons.inj heq).2]
  · exact (List.suffix_cons n k).trans h

theorem straight_of_dir (t : FileTree N F) {k : Place N} (h : t.lookup k = some .dir) :
    t.Straight k := by
  intro s hs target hlink
  by_cases heq : s = k
  · rw [heq, h] at hlink
    cases hlink
  · rw [t.lookup_of_suffix (by rw [h]; rfl) hs heq] at hlink
    cases hlink

/-- A path that spells its directory leads there. -/
theorem leadsTo_of_spells (t : FileTree N F) {path : Path N} {base : Place N}
    (hpath : Spells path base) (hdir : t.lookup base = some .dir) : LeadsTo t path base where
  isDir := hdir
  resolve t' hsame := by
    have hdir' : t'.lookup base = some .dir := by rw [hsame base (not_isBelow_self base), hdir]
    rw [t'.resolve_of_straight true hpath.1 (t'.straight_of_dir hdir')]
    exact t'.locate_of_isSome (by rw [hdir']; rfl)

theorem LeadsTo.remove {t : FileTree N F} {path : Path N} {base k : Place N}
    (h : LeadsTo t path base) (hk : IsBelow base k) : LeadsTo (t.remove k) path base where
  isDir := by
    rw [t.lookup_remove_of_ne k (Ne.symm hk.2)]
    exact h.isDir
  resolve t' hsame := by
    apply h.resolve
    intro s hs
    rw [hsame s hs, t.lookup_remove_of_ne k]
    rintro rfl
    exact hs hk

/-! ## 2. Names below the directory -/

/-- The walk of a path goes on below the directory it leads to, link by link as before. -/
theorem walkComps_below (t : FileTree N F) {again again' : Place N → List (Comp N) → Resolved N}
    {followLast : Bool} {base place : Place N} {rest : List (Comp N)} (hrest : rest ≠ [])
    (hbelow : ∀ again'', t.walkComps again'' followLast base rest = .found place)
    (hagain : ∀ k cs, again k cs = .found base → again' k (cs ++ rest) = .found place)
    {k : Place N} {cs : List (Comp N)} (h : t.walkComps again true k cs = .found base) :
    t.walkComps again' followLast k (cs ++ rest) = .found place := by
  induction cs generalizing k with
  | nil =>
    obtain rfl : k = base := Resolved.found.inj h
    exact hbelow again'
  | cons c cs ih =>
    have hnil : cs ++ rest ≠ [] := List.append_ne_nil_of_right_ne_nil cs hrest
    cases c with
    | parent =>
      rw [walkComps] at h
      rw [List.cons_append, walkComps]
      split at h
      · next hdir =>
        rw [if_pos hdir]
        exact ih h
      · cases h
    | normal n =>
      rw [walkComps] at h
      rw [List.cons_append, walkComps]
      split at h
      · next hdir =>
        rw [if_pos hdir]
        cases hn : t.lookup (n :: k) with
        | none =>
          simp only [hn] at h
          split at h <;> cases h
        | some node =>
          cases node with
          | dir =>
            simp only [hn] at h
            exact ih h
          | file data =>
            simp only [hn] at h
            exact ih h
          | symlink target =>
            -- the link is not the last component, so it is followed in both walks
            simp only [hn] at h
            rw [if_neg (by simp)] at h
            show (if cs ++ rest = [] ∧ followLast = false then _ else _) = _
            rw [if_neg fun hlast ↦ hnil hlast.1, ← List.append_assoc]
            exact hagain _ _ h
      · cases h

/-- An entry below the directory a path is followed to is found at its names. -/
theorem resolve_names (t : FileTree N F) {path : Path N} {base : Place N}
    (hdir : t.lookup base = some .dir) (hpath : t.resolve true path = .found base)
    (followLast : Bool) (names : List N) (hne : names ≠ [])
    {node : Node N F} (hnode : t.lookup (names.reverse ++ base) = some node)
    (hlink : ∀ target, node ≠ .symlink target) (full : Path N)
    (hfull : full.comps = path.comps ++ names.map .normal) :
    t.resolve followLast full = .found (names.reverse ++ base) := by
  have hst : t.Straight (names.reverse ++ base) := by
    intro s hs target hs'
    by_cases heq : s = names.reverse ++ base
    · rw [heq, hnode, Option.some.injEq] at hs'
      exact hlink target hs'
    · rw [t.lookup_of_suffix (by rw [hnode]; rfl) hs heq] at hs'
      cases hs'
  have hbelow : ∀ again, t.walkComps again followLast base (names.map .normal) =
      .found (names.reverse ++ base) := by
    intro again
    rw [t.walkComps_normal again followLast names hdir hst]
    exact t.locate_of_isSome (by rw [hnode]; rfl)
  have hfuel : ∀ fuel k cs, t.resolveFrom true fuel k cs = .found base →
      t.resolveFrom followLast fuel k (cs ++ names.map .normal) =
        .found (names.reverse ++ base) := by
    intro fuel
    induction fuel with
    | zero =>
      intro k cs hfound
      change t.walkComps (fun _ _ ↦ .failed) true k cs = .found base at hfound
      apply t.walkComps_below (by simpa using hne) hbelow _ hfound
      intro _ _ hfailed
      cases hfailed
    | succ fuel ih =>
      intro k cs hfound
      exact t.walkComps_below (by simpa using hne) hbelow ih hfound
  rw [FileTree.resolve, hfull]
  exact hfuel _ _ _ hpath

theorem LeadsTo.resolve_names {t : FileTree N F} {path : Path N} {base : Place N}
    (h : LeadsTo t path base) (followLast : Bool) (names : List N) (hne : names ≠ [])
    {node : Node N F} (hnode : t.lookup (names.reverse ++ base) = some node)
    (hlink : ∀ target, node ≠ .symlink target) (full : Path N)
    (hfull : full.comps = path.comps ++ names.map .normal) :
    t.resolve followLast full = .found (names.reverse ++ base) :=
  t.resolve_names h.isDir (h.resolve t fun _ _ ↦ rfl) followLast names hne hnode hlink full hfull

theorem readFile_of_found (t : FileTree N F) {path : Path N} {k : Place N} {data : F}
    (h : t.resolve true path = .found k) (htrailing : path.trailing = false)
    (hfile : t.lookup k = some (.file data)) : t.readFile path = some data := by
  rw [readFile, stat, h]
  dsimp only
  rw [if_neg (by simp [htrailing]), hfile]
  rfl

/-! ## 3. Files that a removal leaves alone -/

theorem fileAt_remove_of_ne (t : FileTree N F) {k s : Place N} (h : s ≠ k) :
    (t.remove k).fileAt s = t.fileAt s := by
  rw [fileAt, t.lookup_remove_of_ne k h]
  rfl

theorem fileAt_removeFile {t t' : FileTree N F} {path : Path N} (h : t.removeFile path = some t')
    {s : Place N} (hs : t.resolve false path ≠ .found s) : t'.fileAt s = t.fileAt s := by
  rw [removeFile] at h
  split at h
  · cases h
  · split at h
    · rename_i k hk
      split at h
      · cases h
      · cases h
        apply t.fileAt_remove_of_ne
        rintro rfl
        exact hs hk
    · cases h

/-- A directory that is removed is no file, so all files stay. -/
theorem fileAt_removeDir {t t' : FileTree N F} {path : Path N} (h : t.removeDir path = some t')
    (s : Place N) : t'.fileAt s = t.fileAt s := by
  rw [removeDir] at h
  split at h
  · rename_i k hk
    split at h
    · rename_i hdir
      cases h
      by_cases hs : s = k
      · rw [hs, fileAt, fileAt, t.lookup_remove_self hdir.2.1 hdir.2.2,
          (t.isDirAt_iff k).mp hdir.1]
      · exact t.fileAt_remove_of_ne hs
    · cases h
  · cases h

/-! ## 4. The directories a removal empties -/

/-- The place is a directory above `p`, strictly below `base`, and from the parent of `p` up to it
each directory holds nothing but the next one. -/
structure IsEmptied (t : FileTree N F) (base p s : Place N) : Prop where
  above : s <:+ p ∧ s ≠ p
  below : IsBelow base s
  only : ∀ n k, n :: k <:+ p → s <:+ k → ∀ m, (t.lookup (m :: k)).isSome → m = n

theorem not_isEmptied_of_parent (t : FileTree N F) (base : Place N) (n : N) (s : Place N) :
    ¬ IsEmptied t base (n :: base) s := by
  intro h
  have hs := (List.suffix_cons_iff.mp h.above.1).resolve_left h.above.2
  exact h.below.2 (hs.eq_of_length_le h.below.1.length_le)

theorem hasChildren_remove_iff (t : FileTree N F) {n : N} {k : Place N}
    (hleaf : t.hasChildren (n :: k) = false) :
    (t.remove (n :: k)).hasChildren k = false ↔ ∀ m, (t.lookup (m :: k)).isSome → m = n := by
  have hself := t.lookup_remove_self (List.cons_ne_nil n k) hleaf
  rw [← Bool.not_eq_true, hasChildren_iff, not_exists]
  apply forall_congr'
  intro m
  by_cases hm : m = n
  · simp [hm, hself]
  · rw [t.lookup_remove_of_ne (n :: k) (s := m :: k) (by simp [hm])]
    simp [hm]

/-- The parent is emptied when it held nothing else, and then the directories that its own removal
empties. -/
theorem isEmptied_cons_iff (t : FileTree N F) {base : Place N} {n m : N} {k : Place N}
    (hk : base <:+ k) (hleaf : t.hasChildren (n :: m :: k) = false) (s : Place N) :
    IsEmptied t base (n :: m :: k) s ↔
      (t.remove (n :: m :: k)).hasChildren (m :: k) = false ∧
        (s = m :: k ∨ IsEmptied (t.remove (n :: m :: k)) base (m :: k) s) := by
  rw [hasChildren_remove_iff t hleaf]
  have hparent : m :: k <:+ n :: m :: k := List.suffix_cons n (m :: k)
  -- the removed entry is in none of the directories further up
  have hsame : ∀ l m', l <:+ k → (t.remove (n :: m :: k)).lookup (m' :: l) = t.lookup (m' :: l) := by
    intro l m' hl
    apply t.lookup_remove_of_ne
    intro heq
    have hlen := hl.length_le
    rw [(List.cons.inj heq).2, List.length_cons] at hlen
    omega
  constructor
  · intro h
    have hs := (List.suffix_cons_iff.mp h.above.1).resolve_left h.above.2
    refine ⟨h.only n (m :: k) List.suffix_rfl hs, ?_⟩
    by_cases heq : s = m :: k
    · exact .inl heq
    · refine .inr ⟨⟨hs, heq⟩, h.below, ?_⟩
      intro n' k' hn' hk' m' hm'
      rw [hsame k' m' (suffix_of_cons_suffix hn')] at hm'
      exact h.only n' k' (hn'.trans hparent) hk' m' hm'
  · rintro ⟨honly, rfl | h⟩
    · refine ⟨⟨hparent, by simp⟩, isBelow_cons m hk, ?_⟩
      intro n' k' hn' hk' m' hm'
      -- there is no directory between the parent and the entry
      obtain rfl : k' = m :: k := ((suffix_of_cons_suffix hn').eq_of_length_le hk'.length_le)
      have hhead := hn'.eq_of_length_le (by simp)
      rw [(List.cons.inj hhead).1]
      exact honly m' hm'
    · refine ⟨⟨h.above.1.trans hparent, ?_⟩, h.below, ?_⟩
      · rintro rfl
        have hlen := h.above.1.length_le
        rw [List.length_cons, List.length_cons] at hlen
        omega
      · intro n' k' hn' hk' m' hm'
        rcases List.suffix_cons_iff.mp hn' with heq | hn'
        · rw [List.cons.injEq] at heq
          rw [heq.1]
          exact honly m' (heq.2 ▸ hm')
        · rw [← hsame k' m' (suffix_of_cons_suffix hn')] at hm'
          exact h.only n' k' hn' hk' m' hm'

end CooklangSync.Theory.FileTree
