import CooklangSync.Theory.Run
import Mathlib.Data.Set.Defs
import Mathlib.Logic.Function.Basic

/-!
# Replicas — a shared map and the copies that follow it

What replication without merging is for: each replica holds a map and remembers the shared map as it
last saw it.  A replica may publish a key only when it has seen all that is shared, so nothing that
it does not know is replaced; fetching brings at least the keys that have changed.  Values are only
moved: what is shared or held under a key was put there, under that key, by some edit.
-/

namespace CooklangSync.Theory

@[ext] structure Replicas (ι K V : Type) where
  head : K → Option V
  files : ι → K → Option V
  seen : ι → K → Option V

inductive ReplicaAction (ι K V : Type) where
  | edit (i : ι) (files : K → Option V)
  | publish (i : ι) (k : K)
  | withdraw (i : ι) (k : K)
  | fetch (i : ι) (keys : Set K)

namespace Replicas

variable {ι K V : Type} [DecidableEq ι] [DecidableEq K]

/-- The key is shared with the value, and the replica knows. -/
def share (s : Replicas ι K V) (i : ι) (k : K) (v : Option V) : Replicas ι K V where
  head := Function.update s.head k v
  files := s.files
  seen := Function.update s.seen i (Function.update (s.seen i) k v)

open Classical in
noncomputable def next (s : Replicas ι K V) : ReplicaAction ι K V → Option (Replicas ι K V)
  | .edit i files => some { s with files := Function.update s.files i files }
  | .publish i k => if s.seen i = s.head then some (s.share i k (s.files i k)) else none
  | .withdraw i k => if s.seen i = s.head then some (s.share i k none) else none
  | .fetch i keys =>
    if ∀ k, k ∉ keys → s.head k = s.seen i k then
      some
        { head := s.head
          files := Function.update s.files i fun k ↦ if k ∈ keys then s.head k else s.files i k
          seen := Function.update s.seen i s.head }
    else none

/-- All replicas start with what they hold, and nothing is shared. -/
noncomputable def system : System (Replicas ι K V) (ReplicaAction ι K V) where
  init s := s.head = (fun _ ↦ none) ∧ ∀ i, s.seen i = fun _ ↦ none
  step := next

/-! ## 1. Where values come from -/

/-- Every value that is held or shared satisfies a condition on its key. -/
structure Holds (P : K → V → Prop) (s : Replicas ι K V) : Prop where
  head : ∀ k v, s.head k = some v → P k v
  files : ∀ i k v, s.files i k = some v → P k v

theorem Holds.next {P : K → V → Prop} {s s' : Replicas ι K V} {a : ReplicaAction ι K V}
    (h : Holds P s) (hedit : ∀ i files, a = .edit i files → ∀ k v, files k = some v → P k v)
    (hstep : s.next a = some s') : Holds P s' := by
  have hshare : ∀ i k w, (∀ v, w = some v → P k v) → Holds P (s.share i k w) := by
    intro i k w hw
    refine ⟨fun l v hv ↦ ?_, h.files⟩
    change Function.update s.head k w l = some v at hv
    by_cases hl : l = k
    · rw [hl, Function.update_self] at hv
      exact hl ▸ hw v hv
    · rw [Function.update_of_ne hl] at hv
      exact h.head l v hv
  cases a with
  | edit i files =>
    cases hstep
    refine ⟨h.head, fun j k v hv ↦ ?_⟩
    dsimp only at hv
    by_cases hj : j = i
    · rw [hj, Function.update_self] at hv
      exact hedit i files rfl k v hv
    · rw [Function.update_of_ne hj] at hv
      exact h.files j k v hv
  | publish i k =>
    obtain ⟨-, hstep⟩ := Option.ite_none_right_eq_some.mp hstep
    cases hstep
    exact hshare i k _ fun v hv ↦ h.files i k v hv
  | withdraw i k =>
    obtain ⟨-, hstep⟩ := Option.ite_none_right_eq_some.mp hstep
    cases hstep
    exact hshare i k none fun v hv ↦ by cases hv
  | fetch i keys =>
    obtain ⟨-, hstep⟩ := Option.ite_none_right_eq_some.mp hstep
    cases hstep
    refine ⟨h.head, fun j k v hv ↦ ?_⟩
    dsimp only at hv
    by_cases hj : j = i
    · rw [hj, Function.update_self] at hv
      split at hv
      · exact h.head k v hv
      · exact h.files i k v hv
    · rw [Function.update_of_ne hj] at hv
      exact h.files j k v hv

/-- A value was held or shared under its key at the start, or came there by an edit. -/
theorem holds_run {s s' : Replicas ι K V} {as : List (ReplicaAction ι K V)}
    (hrun : system.run s as = some s') :
    Holds (fun k v ↦ s.head k = some v ∨ (∃ i, s.files i k = some v) ∨
      ∃ i files, .edit i files ∈ as ∧ files k = some v) s' := by
  refine System.invariant_run (S := system) ?_ ?_ hrun
  · rintro t t' a ha h hstep
    refine h.next ?_ hstep
    rintro i files rfl k v hv
    exact .inr (.inr ⟨i, files, ha, hv⟩)
  · exact ⟨fun k v hv ↦ .inl hv, fun i k v hv ↦ .inr (.inl ⟨i, hv⟩)⟩

/-! ## 2. Convergence -/

/-- The replica has changed nothing since it last saw the shared map. -/
def IsClean (s : Replicas ι K V) (i : ι) : Prop := s.files i = s.seen i

def IsCurrent (s : Replicas ι K V) (i : ι) : Prop := s.seen i = s.head

omit [DecidableEq ι] [DecidableEq K] in
theorem files_eq_head {s : Replicas ι K V} {i : ι} (hclean : s.IsClean i)
    (hcurrent : s.IsCurrent i) : s.files i = s.head := hclean.trans hcurrent

/-- A replica that is clean remains so as long as it is not edited and withdraws nothing. -/
theorem IsClean.next {s s' : Replicas ι K V} {i : ι} {a : ReplicaAction ι K V}
    (h : s.IsClean i) (hedit : ∀ files, a ≠ .edit i files) (hwithdraw : ∀ k, a ≠ .withdraw i k)
    (hstep : s.next a = some s') : s'.IsClean i := by
  unfold IsClean at h ⊢
  cases a with
  | edit j files =>
    cases hstep
    have hne : i ≠ j := fun heq ↦ hedit files (heq ▸ rfl)
    change Function.update s.files j files i = s.seen i
    rw [Function.update_of_ne hne, h]
  | publish j k =>
    obtain ⟨-, hstep⟩ := Option.ite_none_right_eq_some.mp hstep
    cases hstep
    change s.files i = Function.update s.seen j (Function.update (s.seen j) k (s.files j k)) i
    by_cases hj : i = j
    · subst hj
      rw [Function.update_self, ← h, Function.update_eq_self]
    · rw [Function.update_of_ne hj, h]
  | withdraw j k =>
    obtain ⟨-, hstep⟩ := Option.ite_none_right_eq_some.mp hstep
    cases hstep
    have hne : i ≠ j := fun heq ↦ hwithdraw k (heq ▸ rfl)
    change s.files i = Function.update s.seen j _ i
    rw [Function.update_of_ne hne, h]
  | fetch j keys =>
    obtain ⟨hsame, hstep⟩ := Option.ite_none_right_eq_some.mp hstep
    cases hstep
    dsimp only
    by_cases hj : i = j
    · subst hj
      rw [Function.update_self, Function.update_self, h]
      funext k
      split
      · rfl
      · rename_i hk
        exact (hsame k hk).symm
    · rw [Function.update_of_ne hj, Function.update_of_ne hj, h]

end Replicas

end CooklangSync.Theory
