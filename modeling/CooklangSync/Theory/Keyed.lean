import Mathlib.Data.List.Nodup
import Mathlib.Data.List.Perm.Basic

/-!
# Keyed — hash maps as lists of their entries

A hash map built by insertions keeps the entry inserted last under each key, and is iterated in an
order of its own.  Both are described on the list of entries.
-/

namespace CooklangSync.Theory

variable {α κ : Type} [DecidableEq κ] (key : α → κ)

/-- The entries of the map that `l` builds when its elements are inserted in order. -/
def keepLast : List α → List α
  | [] => []
  | a :: l => if key a ∈ l.map key then keepLast l else a :: keepLast l

/-- The entry under a key, in a list with one entry for each key. -/
def getKey (l : List α) (k : κ) : Option α := l.find? (key · == k)

theorem mem_of_mem_keepLast {l : List α} {a : α} (h : a ∈ keepLast key l) : a ∈ l := by
  induction l with
  | nil => exact h
  | cons b l ih =>
    rw [keepLast] at h
    split at h
    · exact List.mem_cons_of_mem b (ih h)
    · rcases List.mem_cons.mp h with h | h
      · exact List.mem_cons.mpr (.inl h)
      · exact List.mem_cons_of_mem b (ih h)

/-- No key is lost. -/
theorem mem_map_keepLast (l : List α) (k : κ) :
    k ∈ (keepLast key l).map key ↔ k ∈ l.map key := by
  induction l with
  | nil => rfl
  | cons b l ih =>
    rw [keepLast, List.map_cons, List.mem_cons]
    by_cases hb : key b ∈ l.map key
    · rw [if_pos hb, ih]
      exact ⟨.inr, fun h ↦ h.elim (fun heq ↦ heq ▸ hb) id⟩
    · rw [if_neg hb, List.map_cons, List.mem_cons, ih]

theorem nodup_map_keepLast (l : List α) : ((keepLast key l).map key).Nodup := by
  induction l with
  | nil => exact List.nodup_nil
  | cons b l ih =>
    rw [keepLast]
    by_cases hb : key b ∈ l.map key
    · rw [if_pos hb]
      exact ih
    · rw [if_neg hb, List.map_cons, List.nodup_cons, mem_map_keepLast]
      exact ⟨hb, ih⟩

theorem getKey_eq_some_iff {l : List α} (hl : (l.map key).Nodup) (k : κ) (a : α) :
    getKey key l k = some a ↔ a ∈ l ∧ key a = k := by
  constructor
  · intro h
    exact ⟨List.mem_of_find?_eq_some h, by simpa using List.find?_some h⟩
  · rintro ⟨ha, hk⟩
    cases hb : getKey key l k with
    | none =>
      have hno := List.find?_eq_none.mp hb a ha
      exact absurd hk (by simpa using hno)
    | some b =>
      have hkb : key b = k := by simpa using List.find?_some hb
      have hb := List.mem_of_find?_eq_some hb
      rw [List.inj_on_of_nodup_map hl hb ha (hkb.trans hk.symm)]

theorem getKey_eq_none_iff (l : List α) (k : κ) : getKey key l k = none ↔ k ∉ l.map key := by
  simp [getKey, List.find?_eq_none]

/-- Of what is made of the entries under a key, there is at most one. -/
theorem filter_filterMap {β : Type} (key' : β → κ) {g : α → Option β}
    (hg : ∀ a b, g a = some b → key' b = key a) {l : List α} (hl : (l.map key).Nodup) (k : κ) :
    (l.filterMap g).filter (key' · = k) = ((getKey key l k).bind g).toList := by
  induction l with
  | nil => rfl
  | cons a l ih =>
    rw [List.map_cons, List.nodup_cons] at hl
    have hrest := ih hl.2
    by_cases ha : key a = k
    · -- no later entry has the key
      have hnone : getKey key l k = none := (getKey_eq_none_iff key l k).mpr (ha ▸ hl.1)
      have hfirst : getKey key (a :: l) k = some a := List.find?_cons_of_pos (by simp [ha])
      rw [hnone] at hrest
      rw [hfirst, Option.bind_some]
      cases hb : g a with
      | none => rw [List.filterMap_cons_none hb]; exact hrest
      | some b =>
        rw [List.filterMap_cons_some hb, List.filter_cons_of_pos (by simp [hg a b hb, ha]), hrest]
        rfl
    · have hlater : getKey key (a :: l) k = getKey key l k := List.find?_cons_of_neg (by simp [ha])
      rw [hlater, ← hrest]
      cases hb : g a with
      | none => rw [List.filterMap_cons_none hb]
      | some b => rw [List.filterMap_cons_some hb, List.filter_cons_of_neg (by simp [hg a b hb, ha])]

/-- An order of iteration: some rearrangement of the entries. -/
structure Arrangement (α : Type) where
  arrange : List α → List α
  perm : ∀ l, (arrange l).Perm l

namespace Arrangement

def inOrder : Arrangement α := ⟨id, fun _ ↦ List.Perm.refl _⟩

theorem mem_arrange (o : Arrangement α) (l : List α) (a : α) : a ∈ o.arrange l ↔ a ∈ l :=
  (o.perm l).mem_iff

omit [DecidableEq κ] in
theorem nodup_map_arrange (o : Arrangement α) {l : List α} (h : (l.map key).Nodup) :
    ((o.arrange l).map key).Nodup :=
  ((o.perm l).map key).nodup_iff.mpr h

end Arrangement

end CooklangSync.Theory
