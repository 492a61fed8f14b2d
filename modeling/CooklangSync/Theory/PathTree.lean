import CooklangSync.Theory.Lexical

/-!
# PathTree — paths below a directory

The directories above a path are the proper beginnings of its components.  Below one directory the
paths of names are told apart by the names, and so are the directories above them.
-/

namespace CooklangSync.Theory

variable {N : Type}

namespace Path

/-! ## 1. Directories above a path -/

/-- The path that goes down from a directory by names. -/
def below (root : Path N) (names : List N) : Path N where
  absolute := root.absolute
  comps := root.comps ++ names.map .normal
  trailing := false

/-- A directory on the way to the path. -/
def IsAbove (dir path : Path N) : Prop :=
  dir.absolute = path.absolute ∧ dir.comps <+: path.comps ∧ dir.comps ≠ path.comps

theorem map_normal_injective : Function.Injective (List.map (Comp.normal (N := N))) :=
  List.map_injective_iff.mpr fun _ _ h ↦ Comp.normal.inj h

theorem below_injective (root : Path N) : Function.Injective root.below := by
  intro names names' h
  exact map_normal_injective (List.append_cancel_left (congrArg Path.comps h))

theorem below_below (root : Path N) (names names' : List N) :
    (root.below names).below names' = root.below (names ++ names') := by
  rw [below, below, below, List.map_append, List.append_assoc]

theorem sameComponents_below [DecidableEq N] (root : Path N) (names names' : List N) :
    (root.below names).sameComponents (root.below names') = decide (names = names') := by
  rw [sameComponents, below, below, decide_eq_true rfl, Bool.true_and, decide_eq_decide,
    List.append_cancel_left_eq, map_normal_injective.eq_iff]

theorem isAbove_below_iff {root : Path N} {names names' : List N} :
    (root.below names).IsAbove (root.below names') ↔ names <+: names' ∧ names ≠ names' := by
  have hprefix : (root.below names).comps <+: (root.below names').comps ↔ names <+: names' := by
    rw [below, below, List.prefix_append_right_inj,
      List.prefix_map_iff_of_injective fun _ _ h ↦ Comp.normal.inj h]
  have hne : (root.below names).comps ≠ (root.below names').comps ↔ names ≠ names' := by
    rw [below, below, Ne, List.append_cancel_left_eq, map_normal_injective.eq_iff]
  rw [IsAbove, hprefix, hne]
  exact and_iff_right rfl

/-- The directories above a path, but for the one without components. -/
theorem mem_ancestors_iff {dir path : Path N} :
    dir ∈ path.ancestors ↔ ∃ comps, comps ≠ [] ∧ comps <+: path.comps.dropLast ∧
      dir = { absolute := path.absolute, comps := comps, trailing := false } := by
  have htail : ∀ l m : List (Comp N), m ∈ l.inits.tail ↔ m ≠ [] ∧ m <+: l := by
    intro l m
    cases l with
    | nil => simp
    | cons c l =>
      rw [List.inits_cons, List.tail_cons]
      cases m with
      | nil => simp
      | cons d m => simp [List.cons_prefix_cons, eq_comm, and_comm]
  rw [ancestors, parent]
  by_cases hnil : path.comps = []
  · rw [if_pos hnil, hnil]
    simp
  · rw [if_neg hnil]
    simp only [List.mem_map, htail, and_assoc, eq_comm]

/-- Above a path below `root` are the directories on the way to `root`, and the ones below it. -/
theorem mem_ancestors_below {root dir : Path N} {names : List N} {name : N}
    (h : dir ∈ (root.below (names ++ [name])).ancestors) :
    (∃ comps, comps ≠ [] ∧ comps <+: root.comps ∧
      dir = { absolute := root.absolute, comps := comps, trailing := false }) ∨
    ∃ above, above ≠ [] ∧ above <+: names ∧ dir = root.below above := by
  obtain ⟨comps, hne, hprefix, hdir⟩ := mem_ancestors_iff.mp h
  have hcomps : (root.below (names ++ [name])).comps.dropLast =
      root.comps ++ names.map .normal := by
    rw [below, List.map_append, List.map_singleton, ← List.append_assoc, List.dropLast_concat]
  rw [hcomps] at hprefix
  by_cases hroot : comps <+: root.comps
  · exact .inl ⟨comps, hne, hroot, hdir⟩
  · -- it is longer than the root, by some of the names
    rcases List.prefix_or_prefix_of_prefix hprefix (List.prefix_append root.comps _) with
      hshort | ⟨rest, rfl⟩
    · exact absurd hshort hroot
    · rw [List.prefix_append_right_inj, List.prefix_map_iff] at hprefix
      obtain ⟨above, habove, rfl⟩ := hprefix
      refine .inr ⟨above, ?_, habove, hdir⟩
      rintro rfl
      exact hroot (by simp)

/-! ## 2. Places -/

theorem follow_map_normal (k : Place N) (names : List N) :
    follow k (names.map .normal) = names.reverse ++ k := by
  induction names generalizing k with
  | nil => rfl
  | cons n names ih =>
    rw [List.map_cons, follow, ih, List.reverse_cons, List.append_assoc]
    rfl

theorem placeFrom_below (cwd : Place N) (root : Path N) (names : List N) :
    (root.below names).placeFrom cwd = names.reverse ++ root.placeFrom cwd := by
  rw [placeFrom, below, follow_append, follow_map_normal]
  rfl

/-- Paths below a directory are at different places, and not on the way to it. -/
structure Separates {P : Type} (root : Path N) (place : Path N → P) : Prop where
  below : ∀ names names', place (root.below names) = place (root.below names') → names = names'
  above : ∀ comps names, comps <+: root.comps → comps ≠ [] → names ≠ [] →
    place { absolute := root.absolute, comps := comps, trailing := false } ≠
      place (root.below names)

/-- The directories above one path are not at the place of another, unless that is above it too. -/
theorem Separates.place_ne {P : Type} {root : Path N} {place : Path N → P}
    (h : Separates root place) {names names' : List N} {name : N} {dir : Path N}
    (hne : names ≠ []) (hnot : ¬ names <+: names')
    (hdir : dir ∈ (root.below (names' ++ [name])).ancestors) :
    place dir ≠ place (root.below names) := by
  intro heq
  rcases mem_ancestors_below hdir with ⟨comps, hcomps, hprefix, rfl⟩ | ⟨above, -, habove, rfl⟩
  · exact h.above comps names hprefix hcomps hne heq
  · exact hnot (h.below above names heq ▸ habove)

/-- Read off the components, if the directory is spelled without `..`. -/
theorem separates_placeFrom (cwd : Place N) {root : Path N} {rootNames : List N}
    (hroot : root.comps = rootNames.map .normal) : Separates root (·.placeFrom cwd) where
  below names names' h := by
    rw [placeFrom_below, placeFrom_below] at h
    exact List.reverse_injective (List.append_cancel_right h)
  above comps names hcomps _ hne h := by
    rw [hroot, List.prefix_map_iff] at hcomps
    obtain ⟨above, habove, rfl⟩ := hcomps
    have hlen := congrArg List.length h
    have hle := habove.length_le
    have hpos := List.length_pos_iff.mpr hne
    simp only [placeFrom, Path.below, follow_append, hroot, follow_map_normal,
      List.length_append, List.length_reverse] at hlen
    omega

end Path

end CooklangSync.Theory
