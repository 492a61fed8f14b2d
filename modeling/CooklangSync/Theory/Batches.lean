import Mathlib.Algebra.BigOperators.Group.List.Basic
import Mathlib.Algebra.GroupWithZero.Nat
import Mathlib.Data.List.Infix

/-!
# Batches — a list cut into groups by weight

Items are put into a group one after the other, and a group is closed after the item that makes it
too heavy.  Which groups come about is a matter of the list alone (`IsBatching.forall_iff`).
-/

namespace CooklangSync.Theory

variable {α : Type} (weight : α → Nat) (bound : Nat)

def totalWeight (items : List α) : Nat := (items.map weight).sum

/-- Too heavy only since its last item. -/
def IsFull (items : List α) : Prop :=
  bound < totalWeight weight items ∧ totalWeight weight items.dropLast ≤ bound

/-- No item but the last makes the group too heavy. -/
def CanShare (items : List α) : Prop := totalWeight weight items.dropLast ≤ bound

/-- The items are in the full groups and the last one, in order. -/
structure IsBatching (full : List (List α)) (last items : List α) : Prop where
  flatten : full.flatten ++ last = items
  isFull : ∀ group ∈ full, IsFull weight bound group
  light : totalWeight weight last ≤ bound

variable {weight bound}

@[simp] theorem totalWeight_nil : totalWeight weight ([] : List α) = 0 := rfl

@[simp] theorem totalWeight_append (l r : List α) :
    totalWeight weight (l ++ r) = totalWeight weight l + totalWeight weight r := by
  simp [totalWeight]

theorem totalWeight_of_isPrefix {l r : List α} (h : l <+: r) :
    totalWeight weight l ≤ totalWeight weight r := by
  obtain ⟨rest, rfl⟩ := h
  rw [totalWeight_append]
  omega

theorem prefix_dropLast {l r : List α} (h : l <+: r) (hne : l ≠ r) : l <+: r.dropLast := by
  rcases List.prefix_concat_iff.mp (show l <+: r.dropLast ++ [r.getLast (by
    rintro rfl
    exact hne (List.prefix_nil.mp h))] by rwa [List.dropLast_append_getLast]) with heq | hpre
  · rw [List.dropLast_append_getLast] at heq
    exact absurd heq hne
  · exact hpre

/-- A full group cannot be continued. -/
theorem IsFull.eq_of_isPrefix {l r : List α} (hl : IsFull weight bound l)
    (hr : CanShare weight bound r) (h : l <+: r) : l = r := by
  by_contra hne
  have hle : totalWeight weight l ≤ totalWeight weight r.dropLast :=
    totalWeight_of_isPrefix (prefix_dropLast h hne)
  have hheavy := hl.1
  unfold CanShare at hr
  omega

theorem IsFull.canShare {items : List α} (h : IsFull weight bound items) :
    CanShare weight bound items := h.2

theorem canShare_of_light {items : List α} (h : totalWeight weight items ≤ bound) :
    CanShare weight bound items :=
  (totalWeight_of_isPrefix (List.dropLast_prefix items)).trans h

namespace IsBatching

theorem nil : IsBatching weight bound [] [] [] := ⟨rfl, by simp, Nat.zero_le bound⟩

theorem push {full : List (List α)} {last items : List α}
    (h : IsBatching weight bound full last items) (x : α) :
    if bound < totalWeight weight (last ++ [x]) then
      IsBatching weight bound (full ++ [last ++ [x]]) [] (items ++ [x])
    else IsBatching weight bound full (last ++ [x]) (items ++ [x]) := by
  split
  · rename_i hheavy
    refine ⟨by simp [← h.flatten], ?_, Nat.zero_le bound⟩
    intro group hgroup
    rcases List.mem_append.mp hgroup with hold | hnew
    · exact h.isFull group hold
    · rw [List.mem_singleton.mp hnew]
      refine ⟨hheavy, ?_⟩
      rw [List.dropLast_concat]
      exact h.light
  · rename_i hlight
    exact ⟨by simp [← h.flatten], h.isFull, Nat.le_of_not_lt hlight⟩

theorem canShare_of_mem {full : List (List α)} {last items group : List α}
    (h : IsBatching weight bound full last items) (hgroup : group ∈ full ++ [last]) :
    CanShare weight bound group := by
  rcases List.mem_append.mp hgroup with hfull | hlast
  · exact (h.isFull group hfull).canShare
  · rw [List.mem_singleton.mp hlast]
    exact canShare_of_light h.light

/-- A group that follows full ones is the beginning of a group of the batching. -/
theorem exists_of_split {full before : List (List α)} {last items group after : List α}
    (h : IsBatching weight bound full last items)
    (hitems : items = before.flatten ++ group ++ after)
    (hbefore : ∀ b ∈ before, IsFull weight bound b) (hgroup : CanShare weight bound group) :
    ∃ g ∈ full ++ [last], group <+: g := by
  induction before generalizing full items with
  | nil =>
    have heq := h.flatten.trans hitems
    rw [List.flatten_nil, List.nil_append] at heq
    cases full with
    | nil => exact ⟨last, by simp, after, heq.symm⟩
    | cons g full =>
      rw [List.flatten_cons, List.append_assoc] at heq
      refine ⟨g, by simp, ?_⟩
      rcases List.prefix_or_prefix_of_prefix (List.prefix_append g _)
        (heq ▸ List.prefix_append group after) with hg | hg
      · have hsame := (h.isFull g (by simp)).eq_of_isPrefix hgroup hg
        exact hsame ▸ List.prefix_refl g
      · exact hg
  | cons b before ih =>
    have heq := h.flatten.trans hitems
    have hb := hbefore b (by simp)
    rw [List.flatten_cons, List.append_assoc, List.append_assoc] at heq
    cases full with
    | nil =>
      -- the last group is too light to begin with a full one
      have hle : totalWeight weight b ≤ totalWeight weight last :=
        totalWeight_of_isPrefix ⟨_, heq.symm⟩
      have hlight := h.light
      have hheavy := hb.1
      omega
    | cons g full =>
      have hg := h.isFull g (by simp)
      rw [List.flatten_cons, List.append_assoc] at heq
      have hsame : g = b := by
        rcases List.prefix_or_prefix_of_prefix (List.prefix_append g _)
          (heq ▸ List.prefix_append b _) with hgb | hbg
        · exact hg.eq_of_isPrefix hb.canShare hgb
        · exact (hb.eq_of_isPrefix hg.canShare hbg).symm
      rw [hsame] at heq
      have hrest : IsBatching weight bound full last (full.flatten ++ last) :=
        ⟨rfl, fun g' hg' ↦ h.isFull g' (by simp [hg']), h.light⟩
      have hsplit := List.append_cancel_left heq
      rw [← List.append_assoc] at hsplit
      obtain ⟨g', hmem, hpre⟩ := ih hrest hsplit (fun b' hb' ↦ hbefore b' (by simp [hb']))
      exact ⟨g', by simp only [List.cons_append, List.mem_cons, hmem, or_true], hpre⟩

/-- What holds of the beginnings of a group when it holds of the group, holds of all groups of a
batching exactly when it holds of all that can follow full ones. -/
theorem forall_iff {full : List (List α)} {last items : List α}
    (h : IsBatching weight bound full last items) {P : List α → Prop}
    (hP : ∀ l r, l <+: r → P r → P l) :
    (∀ g ∈ full ++ [last], P g) ↔
      ∀ (before : List (List α)) (group after : List α), items = before.flatten ++ group ++ after →
        (∀ b ∈ before, IsFull weight bound b) → CanShare weight bound group → P group := by
  constructor
  · intro hall before group after hitems hbefore hgroup
    obtain ⟨g, hg, hpre⟩ := h.exists_of_split hitems hbefore hgroup
    exact hP group g hpre (hall g hg)
  · intro hall g hg
    rcases List.mem_append.mp hg with hfull | hlast
    · obtain ⟨before, after, rfl⟩ := List.append_of_mem hfull
      apply hall before g (after.flatten ++ last)
      · rw [← h.flatten]
        simp
      · exact fun b hb ↦ h.isFull b (by simp [hb])
      · exact (h.isFull g (by simp)).canShare
    · rw [List.mem_singleton.mp hlast]
      apply hall full last []
      · rw [← h.flatten, List.append_nil]
      · exact h.isFull
      · exact canShare_of_light h.light

end IsBatching

end CooklangSync.Theory
