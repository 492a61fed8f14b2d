import Mathlib.Data.List.Infix

/-!
# Search — first occurrences of a pattern, slices and cuts

The list counterparts of the slice operations a byte scanner is written with: `windows`,
`position` of the first window that equals a pattern, checked sub-slices, and the split of a list
at every occurrence of a pattern.  Everything is stated over an arbitrary element type.

The key description is `position_eq_some_iff`: a match is first exactly when the pattern does not
occur in what precedes it extended by all but the last element of the pattern.  Such a match does
not move when more data arrives (`position_append`).
-/

namespace CooklangSync.Theory

variable {α : Type*}

/-! ## 1. Windows and the first match -/

/-- All contiguous blocks of `n` elements, from left to right. -/
def windows (n : Nat) : List α → List (List α)
  | [] => []
  | a :: l => if n ≤ (a :: l).length then (a :: l).take n :: windows n l else []

/-- Index of the first window equal to `pat`. -/
def position [DecidableEq α] (pat data : List α) : Option Nat :=
  (windows pat.length data).findIdx? (· == pat)

@[simp] theorem position_nil [DecidableEq α] (pat : List α) : position pat [] = none := rfl

theorem windows_eq_nil_of_lt {n : Nat} {l : List α} (h : l.length < n) : windows n l = [] := by
  cases l with
  | nil => rfl
  | cons a l => rw [windows, if_neg (by omega)]

theorem position_cons [DecidableEq α] (pat : List α) (a : α) (l : List α) :
    position pat (a :: l) =
      if pat <+: a :: l then some 0 else (position pat l).map (· + 1) := by
  unfold position
  rw [windows]
  by_cases hlen : pat.length ≤ (a :: l).length
  · rw [if_pos hlen, List.findIdx?_cons]
    by_cases hp : pat <+: a :: l
    · rw [if_pos hp, if_pos (by simpa using (List.prefix_iff_eq_take.mp hp).symm)]
    · have hne : ¬ ((a :: l).take pat.length == pat) = true := by
        intro h
        exact hp (List.prefix_iff_eq_take.mpr (beq_iff_eq.mp h).symm)
      rw [if_neg hp, if_neg hne]
  · have hp : ¬ pat <+: a :: l := fun h ↦ hlen h.length_le
    have hl : l.length < pat.length := by simp at hlen; omega
    rw [if_neg hlen, if_neg hp, windows_eq_nil_of_lt hl]
    rfl

theorem not_infix_dropLast {pat : List α} (hpat : pat ≠ []) : ¬ pat <:+: pat.dropLast := by
  intro h
  have hl := h.length_le
  have hpos := List.length_pos_iff.mpr hpat
  rw [List.length_dropLast] at hl
  omega

/-- A match is the first one exactly when the pattern does not occur in the data before it, the
first elements of the match included. -/
theorem position_eq_some_iff [DecidableEq α] {pat : List α} (hpat : pat ≠ []) (data : List α)
    (i : Nat) :
    position pat data = some i ↔
      ∃ pre suf, data = pre ++ (pat ++ suf) ∧ pre.length = i ∧ ¬ pat <:+: pre ++ pat.dropLast := by
  induction data generalizing i with
  | nil =>
    simp only [position_nil, reduceCtorEq, false_iff]
    rintro ⟨pre, suf, h, -, -⟩
    simp only [List.nil_eq, List.append_eq_nil_iff] at h
    exact hpat h.2.1
  | cons a l ih =>
    rw [position_cons]
    by_cases hp : pat <+: a :: l
    · rw [if_pos hp]
      obtain ⟨suf, hsuf⟩ := hp
      constructor
      · intro h
        obtain rfl : 0 = i := by simpa using h
        exact ⟨[], suf, by simpa using hsuf.symm, rfl, by simpa using not_infix_dropLast hpat⟩
      · rintro ⟨pre, suf', hdata, rfl, hno⟩
        cases pre with
        | nil => rfl
        | cons b pre =>
          exfalso
          apply hno
          have hpre : pat <+: (b :: pre ++ pat.dropLast) := by
            apply List.prefix_of_prefix_length_le (⟨suf, hsuf⟩ : pat <+: a :: l)
            · rw [hdata, List.prefix_append_right_inj]
              exact (List.dropLast_prefix pat).trans (List.prefix_append _ _)
            · have hpos := List.length_pos_iff.mpr hpat
              simp only [List.length_append, List.length_cons, List.length_dropLast]
              omega
          exact hpre.isInfix
    · rw [if_neg hp]
      constructor
      · intro h
        obtain ⟨j, hj, rfl⟩ := Option.map_eq_some_iff.mp h
        obtain ⟨pre, suf, hl, hlen, hno⟩ := (ih j).mp hj
        refine ⟨a :: pre, suf, by rw [hl]; rfl, by simp [hlen], ?_⟩
        rw [List.cons_append, List.infix_cons_iff]
        rintro (h | h)
        · apply hp
          rw [hl]
          refine h.trans ?_
          rw [List.cons_prefix_cons]
          refine ⟨rfl, ?_⟩
          rw [List.prefix_append_right_inj]
          exact (List.dropLast_prefix pat).trans (List.prefix_append _ _)
        · exact hno h
      · rintro ⟨pre, suf, hdata, rfl, hno⟩
        cases pre with
        | nil => exact absurd ⟨suf, hdata.symm⟩ hp
        | cons b pre =>
          simp only [List.cons_append, List.cons.injEq] at hdata
          have hj : position pat l = some pre.length :=
            (ih pre.length).mpr ⟨pre, suf, hdata.2, rfl, fun h ↦ hno (by
              rw [List.cons_append]; exact List.infix_cons h)⟩
          rw [hj]
          rfl

theorem position_eq_none_iff [DecidableEq α] {pat : List α} (hpat : pat ≠ []) (data : List α) :
    position pat data = none ↔ ¬ pat <:+: data := by
  induction data with
  | nil => simp [hpat]
  | cons a l ih =>
    rw [position_cons, List.infix_cons_iff]
    by_cases hp : pat <+: a :: l
    · simp [hp]
    · simp [hp, ih]

/-- A first match does not move when more data arrives. -/
theorem position_append [DecidableEq α] {pat data : List α} {i : Nat} (hpat : pat ≠ [])
    (h : position pat data = some i) (more : List α) :
    position pat (data ++ more) = some i := by
  obtain ⟨pre, suf, rfl, hlen, hno⟩ := (position_eq_some_iff hpat data i).mp h
  exact (position_eq_some_iff hpat _ i).mpr ⟨pre, suf ++ more, by simp, hlen, hno⟩

/-- The first match of a pattern that is written where no earlier occurrence is possible. -/
theorem position_of_append [DecidableEq α] {pat pre : List α} (hpat : pat ≠ [])
    (hno : ¬ pat <:+: pre ++ pat.dropLast) (suf : List α) :
    position pat (pre ++ (pat ++ suf)) = some pre.length :=
  (position_eq_some_iff hpat _ _).mpr ⟨pre, suf, rfl, rfl, hno⟩

theorem position_add_length_le [DecidableEq α] {pat data : List α} {i : Nat} (hpat : pat ≠ [])
    (h : position pat data = some i) : i + pat.length ≤ data.length := by
  obtain ⟨pre, suf, rfl, rfl, -⟩ := (position_eq_some_iff hpat data i).mp h
  simp

/-! ## 2. Occurrences and separators -/

/-- A pattern without the element `x` occurs on one side of every `x`. -/
theorem infix_append_cons_iff {pat : List α} {x : α} (hx : x ∉ pat) (l₁ l₂ : List α) :
    pat <:+: l₁ ++ x :: l₂ ↔ pat <:+: l₁ ∨ pat <:+: l₂ := by
  constructor
  · intro h
    rcases List.infix_append_iff.mp h with h | h | ⟨p, q, rfl, hp, hq⟩
    · exact .inl h
    · rcases List.infix_cons_iff.mp h with h | h
      · cases pat with
        | nil => exact .inl (List.nil_infix)
        | cons y pat =>
          rw [List.cons_prefix_cons] at h
          exact absurd (by simp [h.1]) hx
      · exact .inr h
    · cases q with
      | nil => exact .inl (by simpa using hp.isInfix)
      | cons y q =>
        rw [List.cons_prefix_cons] at hq
        exact absurd (by simp [hq.1]) hx
  · rintro (h | h)
    · exact List.infix_append_of_infix_left h
    · exact List.infix_append_of_infix_right (List.infix_cons h)

/-- A pattern occurs on one side of any non-empty block it shares no element with. -/
theorem infix_append_append_iff {pat block : List α} (hblock : block ≠ [])
    (hdisj : ∀ x ∈ block, x ∉ pat) (l₁ l₂ : List α) :
    pat <:+: l₁ ++ (block ++ l₂) ↔ pat <:+: l₁ ∨ pat <:+: l₂ := by
  induction block generalizing l₁ with
  | nil => exact absurd rfl hblock
  | cons x block ih =>
    rw [List.cons_append, infix_append_cons_iff (hdisj x (by simp))]
    cases block with
    | nil => rfl
    | cons y block =>
      have hrec := ih (by simp) (fun z hz ↦ hdisj z (by simp [hz])) []
      rw [List.nil_append] at hrec
      rw [hrec]
      constructor
      · rintro (h | h | h)
        · exact .inl h
        · exact .inl (List.eq_nil_of_infix_nil h ▸ List.nil_infix)
        · exact .inr h
      · rintro (h | h)
        · exact .inl h
        · exact .inr (.inr h)

/-- What shares no element with the pattern can be left out in front. -/
theorem infix_append_iff_of_not_mem {pat l₁ : List α} (hpat : pat ≠ [])
    (hdisj : ∀ x ∈ l₁, x ∉ pat) (l₂ : List α) : pat <:+: l₁ ++ l₂ ↔ pat <:+: l₂ := by
  by_cases hnil : l₁ = []
  · rw [hnil, List.nil_append]
  · have h := infix_append_append_iff hnil hdisj [] l₂
    rw [List.nil_append, List.infix_nil] at h
    simpa [hpat] using h

/-! ## 3. Checked slices -/

/-- The sub-slice from `lo` to `hi`, when these are ordered and within the list. -/
def slice (l : List α) (lo hi : Nat) : Option (List α) :=
  if lo ≤ hi ∧ hi ≤ l.length then some ((l.drop lo).take (hi - lo)) else none

theorem slice_eq_none_iff (l : List α) (lo hi : Nat) :
    slice l lo hi = none ↔ hi < lo ∨ l.length < hi := by
  unfold slice
  split <;> simp <;> omega

/-! ## 4. Splitting at every occurrence -/

variable [DecidableEq α]

/-- The pieces of `l` between the leftmost non-overlapping occurrences of a pattern; a list
without an occurrence is its own single piece. -/
def splitPieces (pat : List α) (hpat : pat ≠ []) (l : List α) : List (List α) :=
  match _h : position pat l with
  | none => [l]
  | some i => l.take i :: splitPieces pat hpat (l.drop (i + pat.length))
termination_by l.length
decreasing_by
  have hpos := List.length_pos_iff.mpr hpat
  have hle := position_add_length_le hpat _h
  rw [List.length_drop]
  omega

theorem splitPieces_of_none {pat l : List α} (hpat : pat ≠ []) (h : position pat l = none) :
    splitPieces pat hpat l = [l] := by
  rw [splitPieces]
  split
  · rfl
  · rename_i heq; rw [h] at heq; cases heq

theorem splitPieces_of_some {pat l : List α} {i : Nat} (hpat : pat ≠ [])
    (h : position pat l = some i) :
    splitPieces pat hpat l = l.take i :: splitPieces pat hpat (l.drop (i + pat.length)) := by
  rw [splitPieces]
  split
  · rename_i heq; rw [h] at heq; cases heq
  · rename_i j heq
    obtain rfl : j = i := by rw [h] at heq; exact (Option.some.inj heq).symm
    rfl

theorem splitPieces_ne_nil {pat : List α} (hpat : pat ≠ []) (l : List α) :
    splitPieces pat hpat l ≠ [] := by
  rw [splitPieces]
  split <;> simp

/-- The first piece ends at the first match. -/
theorem splitPieces_append {pat pre : List α} (hpat : pat ≠ [])
    (hno : ¬ pat <:+: pre ++ pat.dropLast) (suf : List α) :
    splitPieces pat hpat (pre ++ (pat ++ suf)) = pre :: splitPieces pat hpat suf := by
  rw [splitPieces_of_some hpat (position_of_append hpat hno suf)]
  rw [show pre ++ (pat ++ suf) = (pre ++ pat) ++ suf by simp]
  rw [← List.length_append, List.drop_left]
  simp

/-- The last piece contains no further match. -/
theorem position_getLastD_splitPieces {pat : List α} (hpat : pat ≠ []) (l : List α) :
    position pat ((splitPieces pat hpat l).getLastD []) = none := by
  induction l using splitPieces.induct pat hpat with
  | case1 l hp => simpa [splitPieces_of_none hpat hp] using hp
  | case2 l i hp ih =>
    obtain ⟨q, qs, hq⟩ :=
      List.exists_cons_of_ne_nil (splitPieces_ne_nil hpat (l.drop (i + pat.length)))
    rw [hq] at ih
    rw [splitPieces_of_some hpat hp, hq]
    simpa using ih

/-- Splitting longer data keeps every piece but the last, which is split further. -/
theorem splitPieces_append_right {pat : List α} (hpat : pat ≠ []) (l more : List α) :
    splitPieces pat hpat (l ++ more) =
      (splitPieces pat hpat l).dropLast ++
        splitPieces pat hpat ((splitPieces pat hpat l).getLastD [] ++ more) := by
  induction l using splitPieces.induct pat hpat with
  | case1 l hp => simp [splitPieces_of_none hpat hp]
  | case2 l i hp ih =>
    have hle := position_add_length_le hpat hp
    obtain ⟨q, qs, hq⟩ :=
      List.exists_cons_of_ne_nil (splitPieces_ne_nil hpat (l.drop (i + pat.length)))
    rw [splitPieces_of_some hpat (position_append hpat hp more),
      splitPieces_of_some hpat hp, List.take_append_of_le_length (by omega),
      List.drop_append_of_le_length hle, ih, hq]
    simp

end CooklangSync.Theory
