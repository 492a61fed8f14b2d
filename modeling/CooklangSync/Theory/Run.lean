import Mathlib.Logic.Relation

/-!
# Run — transition systems, their runs, and invariants

A system is given by its initial states and by what each action does.  An action may be impossible
in a state.  A run may be restricted to actions that satisfy a condition where they are taken, so
that a statement about all runs and one about careful runs have the same form.
-/

namespace CooklangSync.Theory

structure System (State Action : Type) where
  init : State → Prop
  step : State → Action → Option State

namespace System

variable {State Action : Type}

/-- The states at the end of the runs all of whose actions satisfy `ok`. -/
inductive Reachable (S : System State Action) (ok : State → Action → Prop) : State → Prop where
  | init {s : State} (h : S.init s) : Reachable S ok s
  | step {s s' : State} (a : Action) (hs : Reachable S ok s) (hok : ok s a)
      (hstep : S.step s a = some s') : Reachable S ok s'

/-- No restriction on the actions. -/
def anyAction : State → Action → Prop := fun _ _ ↦ True

variable {S : System State Action} {ok : State → Action → Prop}

/-- What holds initially and is preserved by every action holds in every reachable state. -/
theorem Reachable.invariant {Inv : State → Prop} (hinit : ∀ s, S.init s → Inv s)
    (hstep : ∀ s a s', Inv s → ok s a → S.step s a = some s' → Inv s') {s : State}
    (h : S.Reachable ok s) : Inv s := by
  induction h with
  | init h => exact hinit _ h
  | step a _ hok hs ih => exact hstep _ a _ ih hok hs

/-- The state after a list of actions, when all of them are possible. -/
def run (S : System State Action) (s : State) : List Action → Option State
  | [] => some s
  | a :: as => (S.step s a).bind (S.run · as)

/-- A run is one of `ok` steps when each of its actions is `ok` where it is taken. -/
theorem Reachable.run_of_ok {s s' : State} (h : S.Reachable ok s) {as : List Action}
    (hrun : S.run s as = some s')
    (hok : ∀ i a t, as[i]? = some a → S.run s (as.take i) = some t → ok t a) :
    S.Reachable ok s' := by
  induction as generalizing s with
  | nil =>
    cases hrun
    exact h
  | cons a as ih =>
    obtain ⟨s₁, hstep, hrun⟩ := Option.bind_eq_some_iff.mp hrun
    apply ih (h.step a (hok 0 a s rfl rfl) hstep) hrun
    intro i b t hb ht
    apply hok (i + 1) b t hb
    rw [List.take_succ_cons, System.run, hstep]
    exact ht

theorem Reachable.run {s s' : State} (h : S.Reachable anyAction s) {as : List Action}
    (hrun : S.run s as = some s') : S.Reachable anyAction s' :=
  h.run_of_ok hrun fun _ _ _ _ _ ↦ trivial

theorem run_append (S : System State Action) (s : State) (as bs : List Action) :
    S.run s (as ++ bs) = (S.run s as).bind (S.run · bs) := by
  induction as generalizing s with
  | nil => rfl
  | cons a as ih =>
    rw [List.cons_append, System.run, System.run, Option.bind_assoc]
    congr 1
    funext s'
    exact ih s'

theorem run_singleton (S : System State Action) (s : State) (a : Action) :
    S.run s [a] = S.step s a := by
  rw [System.run]
  cases S.step s a <;> rfl

/-! ## Each step of a run -/

/-- Every action of the run is `ok` where it is taken. -/
def EachStep (S : System State Action) (ok : State → Action → Prop) (s : State)
    (as : List Action) : Prop :=
  ∀ i a t, as[i]? = some a → S.run s (as.take i) = some t → ok t a

/-- The property holds in every state the run goes through. -/
def Throughout (S : System State Action) (Inv : State → Prop) (s : State) (as : List Action) :
    Prop :=
  ∀ i t, i ≤ as.length → S.run s (as.take i) = some t → Inv t

theorem run_take_succ {s s' : State} {a : Action} (as : List Action) (h : S.step s a = some s')
    (i : Nat) : S.run s ((a :: as).take (i + 1)) = S.run s' (as.take i) := by
  rw [List.take_succ_cons, System.run, h, Option.bind_some]

theorem eachStep_cons {s s' : State} {a : Action} (as : List Action) (h : S.step s a = some s') :
    S.EachStep ok s (a :: as) ↔ ok s a ∧ S.EachStep ok s' as := by
  have hrun := run_take_succ as h
  constructor
  · intro heach
    refine ⟨heach 0 a s rfl rfl, ?_⟩
    intro i b t hb ht
    exact heach (i + 1) b t hb ((hrun i).trans ht)
  · rintro ⟨hfirst, hrest⟩ i b t hb ht
    cases i with
    | zero =>
      cases hb
      cases ht
      exact hfirst
    | succ i => exact hrest i b t hb ((hrun i).symm.trans ht)

theorem EachStep.take {s : State} {as : List Action} (h : S.EachStep ok s as) (i : Nat) :
    S.EachStep ok s (as.take i) := by
  intro j a t ha ht
  have hj : j < i := by
    have hlt := (List.getElem?_eq_some_iff.mp ha).1
    rw [List.length_take] at hlt
    omega
  rw [List.getElem?_take_of_lt hj] at ha
  rw [List.take_take, Nat.min_eq_left (Nat.le_of_lt hj)] at ht
  exact h j a t ha ht

theorem throughout_cons {Inv : State → Prop} {s s' : State} {a : Action} (as : List Action)
    (h : S.step s a = some s') :
    S.Throughout Inv s (a :: as) ↔ Inv s ∧ S.Throughout Inv s' as := by
  have hrun := run_take_succ as h
  constructor
  · intro hall
    refine ⟨hall 0 s (Nat.zero_le _) rfl, ?_⟩
    intro i t hi ht
    exact hall (i + 1) t (Nat.succ_le_succ hi) ((hrun i).trans ht)
  · rintro ⟨hfirst, hrest⟩ i t hi ht
    cases i with
    | zero =>
      cases ht
      exact hfirst
    | succ i => exact hrest i t (Nat.le_of_succ_le_succ hi) ((hrun i).symm.trans ht)

/-- Where `ok` says of every step whether it keeps a property, the property holds throughout the
runs of `ok` steps, and of no others. -/
theorem throughout_iff_eachStep {Inv : State → Prop}
    (hstep : ∀ s a s', Inv s → S.step s a = some s' → (Inv s' ↔ ok s a)) {s s' : State}
    (hs : Inv s) {as : List Action} (hrun : S.run s as = some s') :
    S.Throughout Inv s as ↔ S.EachStep ok s as := by
  induction as generalizing s with
  | nil =>
    constructor
    · intro _ i a t ha
      cases ha
    · intro _ i t _ ht
      rw [List.take_nil] at ht
      cases ht
      exact hs
  | cons a as ih =>
    obtain ⟨s₁, hfirst, hrun⟩ := Option.bind_eq_some_iff.mp hrun
    rw [throughout_cons as hfirst, eachStep_cons as hfirst, ← hstep s a s₁ hs hfirst]
    constructor
    · rintro ⟨-, hall⟩
      have hs₁ := hall 0 s₁ (Nat.zero_le _) rfl
      exact ⟨hs₁, (ih hs₁ hrun).mp hall⟩
    · rintro ⟨hs₁, heach⟩
      exact ⟨hs, (ih hs₁ hrun).mpr heach⟩

/-! ## From one state to another -/

/-- The second state is reached from the first by `ok` steps. -/
def Leads (S : System State Action) (ok : State → Action → Prop) : State → State → Prop :=
  Relation.ReflTransGen fun s s' ↦ ∃ a, ok s a ∧ S.step s a = some s'

theorem leads_of_step {s s' : State} {a : Action} (hok : ok s a) (h : S.step s a = some s') :
    S.Leads ok s s' := .single ⟨a, hok, h⟩

theorem Leads.trans {s₁ s₂ s₃ : State} (h : S.Leads ok s₁ s₂) (h' : S.Leads ok s₂ s₃) :
    S.Leads ok s₁ s₃ := Relation.ReflTransGen.trans h h'

theorem Leads.invariant {P : State → Prop} {s s' : State} (h : S.Leads ok s s')
    (hstep : ∀ s a s', P s → ok s a → S.step s a = some s' → P s') (hs : P s) : P s' := by
  induction h with
  | refl => exact hs
  | tail _ hlast ih =>
    obtain ⟨a, hok, hlast⟩ := hlast
    exact hstep _ a _ ih hok hlast

/-! ## Simulations -/

section Simulations

variable {State' Action' : Type}

/-- Every `ok` step from a state with the invariant is matched by the step of the other system that
`act` names, or by none. -/
structure Simulates (S : System State Action) (T : System State' Action')
    (ok : State → Action → Prop) (Inv : State → Prop) (abs : State → State')
    (act : State → Action → Option Action') : Prop where
  inv : ∀ s a s', Inv s → ok s a → S.step s a = some s' → Inv s'
  step : ∀ s a s', Inv s → ok s a → S.step s a = some s' →
    T.run (abs s) (act s a).toList = some (abs s')

variable {T : System State' Action'} {Inv : State → Prop} {abs : State → State'}
  {act : State → Action → Option Action'}

/-- The actions that the steps of a run name, in their order. -/
def named (S : System State Action) (act : State → Action → Option Action') :
    State → List Action → List Action'
  | _, [] => []
  | s, a :: as =>
    match S.step s a with
    | some s' => (act s a).toList ++ S.named act s' as
    | none => []

theorem mem_named {b : Action'} {s : State} {as : List Action} (h : b ∈ S.named act s as) :
    ∃ a ∈ as, ∃ t, act t a = some b := by
  induction as generalizing s with
  | nil => cases h
  | cons a as ih =>
    rw [named] at h
    split at h
    · rcases List.mem_append.mp h with hb | hb
      · exact ⟨a, List.mem_cons_self, s, Option.mem_toList.mp hb⟩
      · obtain ⟨a', ha', hact⟩ := ih hb
        exact ⟨a', List.mem_cons_of_mem a ha', hact⟩
    · cases h

/-- A run of `ok` steps is matched by the run of the actions they name. -/
theorem Simulates.run (h : Simulates S T ok Inv abs act) {s s' : State} {as : List Action}
    (hs : Inv s) (hrun : S.run s as = some s') (heach : S.EachStep ok s as) :
    T.run (abs s) (S.named act s as) = some (abs s') := by
  induction as generalizing s with
  | nil =>
    cases hrun
    rfl
  | cons a as ih =>
    obtain ⟨s₁, hstep, hrun⟩ := Option.bind_eq_some_iff.mp hrun
    obtain ⟨hok, heach⟩ := (eachStep_cons as hstep).mp heach
    rw [named, hstep, run_append, h.step s a s₁ hs hok hstep]
    exact ih (h.inv s a s₁ hs hok hstep) hrun heach

/-- What every step preserves, a run preserves. -/
theorem invariant_run {P : State → Prop} {as : List Action}
    (hstep : ∀ s s', ∀ a ∈ as, P s → S.step s a = some s' → P s') {s s' : State} (hs : P s)
    (hrun : S.run s as = some s') : P s' := by
  induction as generalizing s with
  | nil =>
    cases hrun
    exact hs
  | cons a as ih =>
    obtain ⟨s₁, hfirst, hrun⟩ := Option.bind_eq_some_iff.mp hrun
    exact ih (fun s s' b hb ↦ hstep s s' b (List.mem_cons_of_mem a hb))
      (hstep s s₁ a List.mem_cons_self hs hfirst) hrun

end Simulations

/-! ## Runs that end -/

/-- Where every step lowers the rank, a run is not longer than the rank it starts from. -/
theorem length_run_le {P : State → Prop} {rank : State → Nat} {as : List Action}
    (hstep : ∀ s s', ∀ a ∈ as, P s → S.step s a = some s' → P s' ∧ rank s' < rank s) {s s' : State}
    (hs : P s) (hrun : S.run s as = some s') : as.length + rank s' ≤ rank s := by
  induction as generalizing s with
  | nil =>
    cases hrun
    exact Nat.le_of_eq (Nat.zero_add _)
  | cons a as ih =>
    obtain ⟨s₁, hfirst, hrun⟩ := Option.bind_eq_some_iff.mp hrun
    obtain ⟨hs₁, hlt⟩ := hstep s s₁ a List.mem_cons_self hs hfirst
    have hrest := ih (fun s s' b hb ↦ hstep s s' b (List.mem_cons_of_mem a hb)) hs₁ hrun
    rw [List.length_cons]
    omega

end System

end CooklangSync.Theory
