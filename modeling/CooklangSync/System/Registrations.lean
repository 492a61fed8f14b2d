import CooklangSync.System.Polls

/-!
# Registrations — the table of waiting clients and the polls in flight

Polls of one client share the entry of its uuid: the first one makes it, and each takes it away when
its wait is over.  A poll whose connection closes is dropped while it waits and takes nothing away.
The table has an entry for exactly the clients with a poll in flight as long as every wait that is
over was the last one of its client, and no dropped one was.
-/

namespace CooklangSync.System

open Theory

/-! ## 1. Runs -/

/-- The table of the server, the polls in flight, and whether the server is shutting down. -/
structure Registrations (ι : Type) where
  active : Server.ActiveClients
  poll : ι → Option Poll
  shutdown : Bool

/-- The steps of a poll: its registration, the three ends of its wait, and the removal of its entry
after them, or its being dropped.  A commit of a client notifies the others. -/
inductive RegistrationAction (ι : Type) where
  | register (n : ι) (uuid : Text)
  | wake (n : ι)
  | timeout (n : ι)
  | stop (n : ι)
  | remove (n : ι)
  | drop (n : ι)
  | notify (uuid : Text)
  | cancel

namespace Registrations

variable {ι : Type}

section Runs

variable [DecidableEq ι]

def setPoll (σ : Registrations ι) (n : ι) (p : Option Poll) : Registrations ι :=
  { σ with poll := Function.update σ.poll n p }

def next (σ : Registrations ι) : RegistrationAction ι → Option (Registrations ι)
  | .register n uuid =>
    match σ.poll n with
    | some _ => none
    | none =>
      let (object, active) := σ.active.register uuid
      some (setPoll { σ with active := active } n (some ⟨uuid, .waiting object⟩))
  | .wake n =>
    match σ.poll n with
    | some ⟨uuid, .waiting object⟩ =>
      if σ.active.permit object then
        some (setPoll { σ with active := σ.active.take object } n (some ⟨uuid, .ended true⟩))
      else none
    | _ => none
  | .timeout n =>
    match σ.poll n with
    | some ⟨uuid, .waiting object⟩ =>
      if σ.active.permit object then none else some (σ.setPoll n (some ⟨uuid, .ended false⟩))
    | _ => none
  | .stop n =>
    match σ.poll n with
    | some ⟨uuid, .waiting _⟩ =>
      if σ.shutdown then some (σ.setPoll n (some ⟨uuid, .ended false⟩)) else none
    | _ => none
  | .remove n =>
    match σ.poll n with
    | some ⟨uuid, .ended _⟩ => some (setPoll { σ with active := σ.active.remove uuid } n none)
    | _ => none
  | .drop n =>
    match σ.poll n with
    -- a handler can be dropped only where it waits
    | some ⟨_, .waiting _⟩ => some (σ.setPoll n none)
    | _ => none
  | .notify uuid => some { σ with active := σ.active.notify uuid }
  | .cancel => some { σ with shutdown := true }

/-- A server that was just started. -/
def init : Registrations ι := ⟨.init, fun _ ↦ none, false⟩

def system : System (Registrations ι) (RegistrationAction ι) where
  init σ := σ = init
  step := next

end Runs

/-! ## 2. Polls in flight -/

/-- A poll of the client has registered and has not ended. -/
def InFlight (σ : Registrations ι) (uuid : Text) : Prop :=
  ∃ n p, σ.poll n = some p ∧ p.uuid = uuid

def HasEntry (σ : Registrations ι) (uuid : Text) : Prop :=
  (σ.active.clients.lookup uuid).isSome = true

/-- The table has an entry for exactly the clients with a poll in flight. -/
def IsMirrored (σ : Registrations ι) : Prop := ∀ uuid, σ.HasEntry uuid ↔ σ.InFlight uuid

/-- Another poll of the same client is in flight. -/
def HasTwin (σ : Registrations ι) (n : ι) : Prop :=
  ∃ p m q, σ.poll n = some p ∧ m ≠ n ∧ σ.poll m = some q ∧ q.uuid = p.uuid

/-- A poll that is over was the last one of its client, and a dropped one was not. -/
def IsPaired (σ : Registrations ι) : RegistrationAction ι → Prop
  | .remove n => ¬ σ.HasTwin n
  | .drop n => σ.HasTwin n
  | _ => True

/-! ## 3. Steps -/

section Steps

variable [DecidableEq ι] {σ : Registrations ι}

theorem inFlight_setPoll_iff (n : ι) (p : Option Poll) (uuid : Text) :
    (σ.setPoll n p).InFlight uuid ↔
      (∃ q, p = some q ∧ q.uuid = uuid) ∨ ∃ m q, m ≠ n ∧ σ.poll m = some q ∧ q.uuid = uuid := by
  constructor
  · rintro ⟨m, q, hm, hq⟩
    change Function.update σ.poll n p m = some q at hm
    by_cases hmn : m = n
    · rw [hmn, Function.update_self] at hm
      exact .inl ⟨q, hm, hq⟩
    · rw [Function.update_of_ne hmn] at hm
      exact .inr ⟨m, q, hmn, hm, hq⟩
  · rintro (⟨q, rfl, hq⟩ | ⟨m, q, hmn, hm, hq⟩)
    · exact ⟨n, q, Function.update_self .., hq⟩
    · exact ⟨m, q, (Function.update_of_ne hmn ..).trans hm, hq⟩

/-- A poll in flight is one of two: this one, or another. -/
theorem inFlight_iff_of_poll {n : ι} {p : Poll} (hn : σ.poll n = some p) (uuid : Text) :
    σ.InFlight uuid ↔
      p.uuid = uuid ∨ ∃ m q, m ≠ n ∧ σ.poll m = some q ∧ q.uuid = uuid := by
  have hsame : σ.setPoll n (some p) = σ := by
    rw [setPoll, ← hn, Function.update_eq_self]
  have hset := inFlight_setPoll_iff (σ := σ) n (some p) uuid
  rw [hsame] at hset
  rw [hset]
  simp

omit [DecidableEq ι] in
theorem hasTwin_iff {n : ι} {p : Poll} (hn : σ.poll n = some p) :
    σ.HasTwin n ↔ ∃ m q, m ≠ n ∧ σ.poll m = some q ∧ q.uuid = p.uuid := by
  constructor
  · rintro ⟨p', m, q, hp', htwin⟩
    obtain rfl := Option.some.inj (hn.symm.trans hp')
    exact ⟨m, q, htwin⟩
  · rintro ⟨m, q, htwin⟩
    exact ⟨p, m, q, hn, htwin⟩

/-- A poll that goes on changes neither its client nor the table. -/
theorem IsMirrored.goOn (hσ : σ.IsMirrored) {n : ι} {uuid : Text} {handler : Handler}
    (hn : σ.poll n = some ⟨uuid, handler⟩) (handler' : Handler) {active : Server.ActiveClients}
    (hclients : active.clients = σ.active.clients) :
    (setPoll { σ with active := active } n (some ⟨uuid, handler'⟩)).IsMirrored := by
  intro client
  rw [inFlight_setPoll_iff]
  change (active.clients.lookup client).isSome = true ↔ _
  rw [hclients]
  refine (hσ client).trans ((inFlight_iff_of_poll hn client).trans ?_)
  apply or_congr_left
  constructor
  · exact fun h ↦ ⟨_, rfl, h⟩
  · rintro ⟨q, hq, rfl⟩
    rw [← Option.some.inj hq]

theorem IsMirrored.register (hσ : σ.IsMirrored) {n : ι} (hn : σ.poll n = none) (uuid : Text)
    (object : Nat) :
    (setPoll { σ with active := (σ.active.register uuid).2 } n
      (some ⟨uuid, .waiting object⟩)).IsMirrored := by
  intro client
  rw [inFlight_setPoll_iff]
  change ((σ.active.register uuid).2.clients.lookup client).isSome = true ↔ _
  by_cases hclient : client = uuid
  · subst hclient
    rw [Server.ActiveClients.lookup_register_self]
    exact iff_of_true rfl (.inl ⟨_, rfl, rfl⟩)
  · rw [Server.ActiveClients.lookup_register_of_ne hclient]
    refine (hσ client).trans ?_
    constructor
    · rintro ⟨m, q, hm, hq⟩
      refine .inr ⟨m, q, ?_, hm, hq⟩
      rintro rfl
      rw [hn] at hm
      cases hm
    · rintro (⟨q, hq, rfl⟩ | ⟨m, q, -, hm, hq⟩)
      · rw [← Option.some.inj hq] at hclient
        exact absurd rfl hclient
      · exact ⟨m, q, hm, hq⟩

/-- The removal takes away the entry of all the polls of the client. -/
theorem isMirrored_remove_iff (hσ : σ.IsMirrored) {n : ι} {p : Poll} (hn : σ.poll n = some p) :
    (setPoll { σ with active := σ.active.remove p.uuid } n none).IsMirrored ↔ ¬ σ.HasTwin n := by
  have hflight : ∀ uuid, (setPoll { σ with active := σ.active.remove p.uuid } n none).InFlight uuid
      ↔ ∃ m q, m ≠ n ∧ σ.poll m = some q ∧ q.uuid = uuid := by
    intro uuid
    rw [inFlight_setPoll_iff]
    simp
  rw [hasTwin_iff hn]
  constructor
  · intro h htwin
    have hentry := (h p.uuid).mpr ((hflight p.uuid).mpr htwin)
    change ((σ.active.remove p.uuid).clients.lookup p.uuid).isSome = true at hentry
    rw [Server.ActiveClients.lookup_remove_self] at hentry
    cases hentry
  · intro hlast uuid
    rw [hflight]
    change ((σ.active.remove p.uuid).clients.lookup uuid).isSome = true ↔ _
    by_cases huuid : uuid = p.uuid
    · rw [huuid, Server.ActiveClients.lookup_remove_self]
      exact iff_of_false Bool.false_ne_true hlast
    · rw [Server.ActiveClients.lookup_remove_of_ne huuid]
      refine (hσ uuid).trans ((inFlight_iff_of_poll hn uuid).trans ?_)
      exact or_iff_right (Ne.symm huuid)

/-- A dropped poll leaves the entry behind. -/
theorem isMirrored_drop_iff (hσ : σ.IsMirrored) {n : ι} {p : Poll} (hn : σ.poll n = some p) :
    (σ.setPoll n none).IsMirrored ↔ σ.HasTwin n := by
  have hflight : ∀ uuid, (σ.setPoll n none).InFlight uuid ↔
      ∃ m q, m ≠ n ∧ σ.poll m = some q ∧ q.uuid = uuid := by
    intro uuid
    rw [inFlight_setPoll_iff]
    simp
  rw [hasTwin_iff hn]
  constructor
  · intro h
    have hentry : σ.HasEntry p.uuid := (hσ p.uuid).mpr ⟨n, p, hn, rfl⟩
    exact (hflight p.uuid).mp ((h p.uuid).mp hentry)
  · intro htwin uuid
    rw [hflight]
    refine (hσ uuid).trans ((inFlight_iff_of_poll hn uuid).trans ?_)
    exact or_iff_right_of_imp fun heq ↦ heq ▸ htwin

theorem isMirrored_next_iff {σ' : Registrations ι} {a : RegistrationAction ι} (hσ : σ.IsMirrored)
    (hstep : σ.next a = some σ') : σ'.IsMirrored ↔ σ.IsPaired a := by
  cases a with
  | register n uuid =>
    simp only [next] at hstep
    split at hstep
    · cases hstep
    · next hn =>
      cases hstep
      exact iff_of_true (hσ.register hn uuid _) trivial
  | wake n =>
    simp only [next] at hstep
    split at hstep
    · next uuid object hn =>
      split at hstep
      · cases hstep
        exact iff_of_true (hσ.goOn hn _ rfl) trivial
      · cases hstep
    · cases hstep
  | timeout n =>
    simp only [next] at hstep
    split at hstep
    · next uuid object hn =>
      split at hstep
      · cases hstep
      · cases hstep
        exact iff_of_true (hσ.goOn hn _ rfl) trivial
    · cases hstep
  | stop n =>
    simp only [next] at hstep
    split at hstep
    · next uuid object hn =>
      split at hstep
      · cases hstep
        exact iff_of_true (hσ.goOn hn _ rfl) trivial
      · cases hstep
    · cases hstep
  | remove n =>
    simp only [next] at hstep
    split at hstep
    · next uuid woken hn =>
      cases hstep
      exact isMirrored_remove_iff hσ hn
    · cases hstep
  | drop n =>
    simp only [next] at hstep
    split at hstep
    · next uuid object hn =>
      cases hstep
      exact isMirrored_drop_iff hσ hn
    · cases hstep
  | notify uuid =>
    cases hstep
    exact iff_of_true (fun client ↦ hσ client) trivial
  | cancel =>
    cases hstep
    exact iff_of_true (fun client ↦ hσ client) trivial

omit [DecidableEq ι] in
theorem isMirrored_init : (init : Registrations ι).IsMirrored := by
  intro uuid
  constructor
  · intro h
    cases h
  · rintro ⟨n, p, hn, -⟩
    cases hn

/-! ## 4. Runs of paired steps -/

/-- The table mirrors the polls throughout the runs whose steps are paired, and no others. -/
theorem isMirrored_throughout_iff {σ' : Registrations ι} {as : List (RegistrationAction ι)}
    (hrun : system.run (init : Registrations ι) as = some σ') :
    system.Throughout IsMirrored (init : Registrations ι) as ↔
      system.EachStep IsPaired (init : Registrations ι) as := by
  have hstep : ∀ (σ : Registrations ι) (a : RegistrationAction ι) (τ : Registrations ι),
      σ.IsMirrored → system.step σ a = some τ → (τ.IsMirrored ↔ σ.IsPaired a) :=
    fun _ _ _ hinv hnext ↦ isMirrored_next_iff hinv hnext
  exact System.throughout_iff_eachStep hstep isMirrored_init hrun

end Steps

-- An example: a client polls until its time is over, and then polls again.
def phone : Text := "phone".toList

def pollTwice : List (RegistrationAction Bool) :=
  [.register true phone, .timeout true, .remove true, .register false phone, .notify [],
    .wake false, .remove false]

theorem isMirrored_pollTwice :
    ∃ σ, system.run (init : Registrations Bool) pollTwice = some σ ∧
      (system.Throughout IsMirrored (init : Registrations Bool) pollTwice ↔
        system.EachStep IsPaired (init : Registrations Bool) pollTwice) := by
  have hsome : (system.run (init : Registrations Bool) pollTwice).isSome = true := by decide
  obtain ⟨σ, hrun⟩ := Option.isSome_iff_exists.mp hsome
  exact ⟨σ, hrun, isMirrored_throughout_iff hrun⟩

-- The client gives up first and polls again, and the old poll removes the entry of the new one; or
-- the connection of its only poll closes.
theorem isMirrored_fails :
    (∃ σ : Registrations Bool, system.Reachable System.anyAction σ ∧ σ.InFlight phone ∧
      ¬ σ.HasEntry phone) ∧
    ∃ σ : Registrations Bool, system.Reachable System.anyAction σ ∧ σ.HasEntry phone ∧
      ¬ σ.InFlight phone := by
  constructor
  · let run := system.run (init : Registrations Bool)
      [.register true phone, .register false phone, .timeout true, .remove true]
    have hsome : run.isSome := by decide
    obtain ⟨σ, hrun⟩ := Option.isSome_iff_exists.mp hsome
    have hstate : run.map (fun τ ↦ ((τ.poll false).map Poll.uuid,
        (τ.active.clients.lookup phone).isSome)) = some (some phone, false) := by
      decide
    rw [show run = some σ from hrun, Option.map_some, Option.some.injEq, Prod.mk.injEq,
      Option.map_eq_some_iff] at hstate
    obtain ⟨⟨p, hp, huuid⟩, hentry⟩ := hstate
    exact ⟨σ, (System.Reachable.init rfl).run hrun, ⟨false, p, hp, huuid⟩,
      by rw [HasEntry, hentry]; exact Bool.false_ne_true⟩
  · let run := system.run (init : Registrations Bool) [.register true phone, .drop true]
    have hsome : run.isSome := by decide
    obtain ⟨σ, hrun⟩ := Option.isSome_iff_exists.mp hsome
    have hstate : run.map (fun τ ↦ (τ.poll true, τ.poll false,
        (τ.active.clients.lookup phone).isSome)) = some (none, none, true) := by
      decide
    rw [show run = some σ from hrun, Option.map_some, Option.some.injEq, Prod.mk.injEq,
      Prod.mk.injEq] at hstate
    obtain ⟨htrue, hfalse, hentry⟩ := hstate
    refine ⟨σ, (System.Reachable.init rfl).run hrun, hentry, ?_⟩
    rintro ⟨n, p, hn, -⟩
    cases n with
    | true => rw [htrue] at hn; cases hn
    | false => rw [hfalse] at hn; cases hn

end Registrations

end CooklangSync.System
