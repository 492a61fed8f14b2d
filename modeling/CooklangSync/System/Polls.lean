import CooklangSync.Server.Notification
import CooklangSync.Theory.Run

/-!
# Polls — commits and the long polls that wait for them

A client lists the records and then polls until a commit of another client wakes it.  A commit
inserts its record first and notifies afterwards whoever has an entry by then; a poll has one from
its registration until it ends.
-/

namespace CooklangSync.System

open Theory

/-! ## 1. Runs -/

/-- A client is about to ask for its list, has been listed, or waits for the answer to a poll. -/
inductive LoopPhase where
  | idle
  | listed
  | polling (poll : Nat)
  deriving DecidableEq, Repr

/-- The handler of a poll waits on an object, or it was woken or has timed out and will remove the
entry. -/
inductive Handler where
  | waiting (object : Nat)
  | ended (woken : Bool)
  deriving DecidableEq, Repr

structure Poll where
  uuid : Text
  handler : Handler
  deriving DecidableEq, Repr

/-- The journal holds the uuid of the client for each record.  A commit is `unnotified` between the
insertion of its record, with its index and its client, and the notification.  A client has `missed`
a record when a poll of its timed out after another client had inserted one. -/
structure Polls (κ : Type) where
  journal : List Text
  active : Server.ActiveClients
  poll : Nat → Option Poll
  started : Nat
  phase : Text → LoopPhase
  listedAt : Text → Nat
  unnotified : κ → Option (Nat × Text)
  missed : Text → Bool

/-- One step of a client, of the handler of a poll or of a commit.  A client gives up at its own
timeout, which is shorter than that of the poll; the handler then goes on, or is dropped when the
server finds the connection closed. -/
inductive PollAction (κ : Type) where
  | list (uuid : Text)
  | register (uuid : Text)
  | wake (n : Nat)
  | timeout (n : Nat)
  | remove (n : Nat)
  | giveUp (uuid : Text)
  | drop (n : Nat)
  | insert (k : κ) (uuid : Text)
  | notify (k : κ)

namespace Polls

variable {κ : Type}

/-- Another client has inserted a record since the last list. -/
def hasUnseen (σ : Polls κ) (uuid : Text) : Bool :=
  (σ.journal.drop (σ.listedAt uuid)).any (· ≠ uuid)

def timedOut (σ : Polls κ) (uuid : Text) : Text → Bool :=
  Function.update σ.missed uuid (σ.missed uuid || σ.hasUnseen uuid)

section Runs

variable [DecidableEq κ]

def next (σ : Polls κ) : PollAction κ → Option (Polls κ)
  | .list uuid =>
    if σ.phase uuid = .idle then
      some { σ with
        phase := Function.update σ.phase uuid .listed
        listedAt := Function.update σ.listedAt uuid σ.journal.length }
    else none
  | .register uuid =>
    if σ.phase uuid = .listed then
      let (object, active) := σ.active.register uuid
      some { σ with
        active := active
        poll := Function.update σ.poll σ.started (some ⟨uuid, .waiting object⟩)
        started := σ.started + 1
        phase := Function.update σ.phase uuid (.polling σ.started) }
    else none
  | .wake n =>
    match σ.poll n with
    | some ⟨uuid, .waiting object⟩ =>
      if σ.active.permit object then
        some { σ with
          active := σ.active.take object
          poll := Function.update σ.poll n (some ⟨uuid, .ended true⟩) }
      else none
    | _ => none
  | .timeout n =>
    match σ.poll n with
    | some ⟨uuid, .waiting object⟩ =>
      -- the notification is looked at before the time
      if σ.active.permit object then none
      else
        some { σ with
          poll := Function.update σ.poll n (some ⟨uuid, .ended false⟩)
          missed := if σ.phase uuid = .polling n then σ.timedOut uuid else σ.missed }
    | _ => none
  | .remove n =>
    match σ.poll n with
    | some ⟨uuid, .ended _⟩ =>
      some { σ with
        active := σ.active.remove uuid
        poll := Function.update σ.poll n none
        phase := if σ.phase uuid = .polling n then Function.update σ.phase uuid .idle
          else σ.phase }
    | _ => none
  | .giveUp uuid =>
    match σ.phase uuid with
    | .polling n =>
      some { σ with
        phase := Function.update σ.phase uuid .idle
        missed :=
          match σ.poll n with
          | some ⟨_, .waiting _⟩ => σ.timedOut uuid
          | _ => σ.missed }
    | _ => none
  | .drop n =>
    match σ.poll n with
    | some p =>
      if σ.phase p.uuid = .polling n then none
      else some { σ with poll := Function.update σ.poll n none }
    | none => none
  | .insert k uuid =>
    match σ.unnotified k with
    | some _ => none
    | none =>
      some { σ with
        journal := σ.journal ++ [uuid]
        unnotified := Function.update σ.unnotified k (some (σ.journal.length, uuid)) }
  | .notify k =>
    match σ.unnotified k with
    | some (_, uuid) =>
      some { σ with
        active := σ.active.notify uuid
        unnotified := Function.update σ.unnotified k none }
    | none => none

/-- A server that was just started, and clients that have not listed yet. -/
def init : Polls κ where
  journal := []
  active := .init
  poll _ := none
  started := 0
  phase _ := .idle
  listedAt _ := 0
  unnotified _ := none
  missed _ := false

def system : System (Polls κ) (PollAction κ) where
  init σ := σ = init
  step := next

end Runs

/-! ## 2. Lost wake-ups -/

/-- The commit of another client has inserted a record since the last list and has not notified
yet. -/
def IsComing (σ : Polls κ) (uuid : Text) (k : κ) : Prop :=
  ∃ i committer, σ.unnotified k = some (i, committer) ∧ σ.listedAt uuid ≤ i ∧ committer ≠ uuid

/-- No poll that followed an insertion has timed out, and the poll that waits has its wake-up as
soon as the commits have notified. -/
def NoLostWakeup (σ : Polls κ) : Prop :=
  ∀ uuid, σ.missed uuid = false ∧
    ∀ n object, σ.phase uuid = .polling n → σ.poll n = some ⟨uuid, .waiting object⟩ →
      σ.hasUnseen uuid = true → (∀ k, ¬ σ.IsComing uuid k) → σ.active.permit object = true

/-- The entry of the client is there, and it is the one that its poll waits on. -/
def IsReached (σ : Polls κ) (uuid : Text) : Prop :=
  match σ.phase uuid with
  | .idle => True
  | .listed => (σ.active.clients.lookup uuid).isSome
  | .polling n => ∀ object, σ.poll n = some ⟨uuid, .waiting object⟩ →
      σ.active.clients.lookup uuid = some object

/-- A commit notifies when the poll that follows its insertion is registered; a poll does not time
out between the insertion and the notification, nor its client give up before it has woken; and a
handler whose client has given up neither takes the permit nor removes the entry that the next poll
needs. -/
def IsHeard (σ : Polls κ) : PollAction κ → Prop
  | .notify k => ∀ uuid, σ.IsComing uuid k → σ.IsReached uuid
  | .timeout n => ∀ p, σ.poll n = some p → σ.phase p.uuid = .polling n →
      ∀ k, ¬ σ.IsComing p.uuid k
  | .giveUp uuid => (∀ k, ¬ σ.IsComing uuid k) ∧ ∀ n object, σ.phase uuid = .polling n →
      σ.poll n = some ⟨uuid, .waiting object⟩ → σ.active.permit object = false
  | .wake n => ∀ p, σ.poll n = some p → σ.phase p.uuid = .polling n ∨ σ.hasUnseen p.uuid = false
  | .remove n => ∀ p, σ.poll n = some p → σ.phase p.uuid = .polling n ∨
      σ.phase p.uuid ≠ .listed ∨ σ.hasUnseen p.uuid = false
  | _ => True

/-! ## 3. The invariant -/

/-- A wake-up waits for the client. -/
def IsDue (σ : Polls κ) (uuid : Text) : Prop :=
  match σ.phase uuid with
  | .idle => True
  | .listed => ∃ object, σ.active.clients.lookup uuid = some object ∧
      σ.active.permit object = true
  | .polling n => ∀ object, σ.poll n = some ⟨uuid, .waiting object⟩ →
      σ.active.permit object = true

/-- Every object belongs to one client. -/
structure Owned (active : Server.ActiveClients) (poll : Nat → Option Poll) (owner : Nat → Text) :
    Prop where
  entry : ∀ uuid object, active.clients.lookup uuid = some object →
    owner object = uuid ∧ object < active.created
  waiting : ∀ n uuid object, poll n = some ⟨uuid, .waiting object⟩ →
    owner object = uuid ∧ object < active.created

structure Inv (σ : Polls κ) : Prop where
  due : ∀ uuid, σ.hasUnseen uuid = true → (∃ k, σ.IsComing uuid k) ∨ σ.IsDue uuid
  owned : ∃ owner, Owned σ.active σ.poll owner
  bounded : ∀ n p, σ.poll n = some p → n < σ.started
  numbered : ∀ uuid n, σ.phase uuid = .polling n →
    n < σ.started ∧ ∀ p, σ.poll n = some p → p.uuid = uuid
  listed : ∀ uuid, σ.listedAt uuid ≤ σ.journal.length
  missed : ∀ uuid, σ.missed uuid = false

theorem Inv.noLostWakeup {σ : Polls κ} (h : Inv σ) : NoLostWakeup σ := by
  intro uuid
  refine ⟨h.missed uuid, fun n object hphase hpoll hunseen hnone ↦ ?_⟩
  rcases h.due uuid hunseen with ⟨k, hk⟩ | hdue
  · exact absurd hk (hnone k)
  · rw [IsDue, hphase] at hdue
    exact hdue object hpoll

theorem Inv.init : Inv (Polls.init : Polls κ) where
  due uuid h := by
    rw [hasUnseen] at h
    cases h
  owned := ⟨fun _ ↦ [], (fun _ _ h ↦ nomatch h), (fun _ _ _ h ↦ nomatch h)⟩
  bounded _ _ h := nomatch h
  numbered _ _ h := nomatch h
  listed _ := Nat.le_refl 0
  missed _ := rfl

/-- A wake-up stays where neither the entry nor the poll of the client is lost, nor a permit that it
refers to. -/
theorem IsDue.frame {σ σ' : Polls κ} {uuid : Text} (h : σ.IsDue uuid)
    (hphase : σ'.phase uuid = σ.phase uuid)
    (hentry : ∀ object, σ.phase uuid = .listed → σ.active.clients.lookup uuid = some object →
      σ'.active.clients.lookup uuid = some object)
    (hpoll : ∀ n object, σ'.poll n = some ⟨uuid, .waiting object⟩ → σ.phase uuid = .polling n →
      σ.poll n = some ⟨uuid, .waiting object⟩)
    (hpermit : ∀ object, (σ.active.clients.lookup uuid = some object ∨
        ∃ n, σ.poll n = some ⟨uuid, .waiting object⟩) → σ.active.permit object = true →
      σ'.active.permit object = true) : σ'.IsDue uuid := by
  unfold IsDue at h ⊢
  rw [hphase]
  cases hc : σ.phase uuid with
  | idle => trivial
  | listed =>
    rw [hc] at h
    obtain ⟨object, hlookup, hset⟩ := h
    exact ⟨object, hentry object hc hlookup, hpermit object (.inl hlookup) hset⟩
  | polling n =>
    rw [hc] at h
    intro object hn
    have hold := hpoll n object hn hc
    exact hpermit object (.inr ⟨n, hold⟩) (h object hold)

theorem isDue_of_idle {σ : Polls κ} {uuid : Text} (h : σ.phase uuid = .idle) : σ.IsDue uuid := by
  rw [IsDue, h]
  trivial

/-- A poll that waits without a permit has nothing unseen, unless a commit is about to notify. -/
theorem Inv.nothingUnseen {σ : Polls κ} (h : Inv σ) {uuid : Text} {n object : Nat}
    (hphase : σ.phase uuid = .polling n) (hn : σ.poll n = some ⟨uuid, .waiting object⟩)
    (hnone : ∀ k, ¬ σ.IsComing uuid k) (hpermit : σ.active.permit object = false) :
    σ.hasUnseen uuid = false := by
  by_contra hunseen
  rcases h.due uuid (by simpa using hunseen) with ⟨k, hk⟩ | hdue
  · exact hnone k hk
  · rw [IsDue, hphase] at hdue
    have hset := hdue object hn
    rw [hpermit] at hset
    cases hset

theorem Inv.timedOut_eq_false {σ : Polls κ} (h : Inv σ) {uuid : Text}
    (hseen : σ.hasUnseen uuid = false) (client : Text) : σ.timedOut uuid client = false := by
  by_cases hclient : client = uuid
  · rw [timedOut, hclient, Function.update_self, h.missed uuid, hseen]
    rfl
  · rw [timedOut, Function.update_of_ne hclient]
    exact h.missed client

theorem waiting_of_update {poll : Nat → Option Poll} {n : Nat} {p : Option Poll}
    (hp : ∀ uuid object, p ≠ some ⟨uuid, .waiting object⟩) {m object : Nat} {uuid : Text}
    (hm : Function.update poll n p m = some ⟨uuid, .waiting object⟩) :
    poll m = some ⟨uuid, .waiting object⟩ := by
  by_cases hmn : m = n
  · rw [hmn, Function.update_self] at hm
    exact absurd hm (hp uuid object)
  · rwa [Function.update_of_ne hmn] at hm

/-- A poll that does not wait any more needs no object. -/
theorem Owned.update {active : Server.ActiveClients} {poll : Nat → Option Poll}
    {owner : Nat → Text} (h : Owned active poll owner) (n : Nat) {p : Option Poll}
    (hp : ∀ uuid object, p ≠ some ⟨uuid, .waiting object⟩) :
    Owned active (Function.update poll n p) owner where
  entry := h.entry
  waiting m uuid object hm := h.waiting m uuid object (waiting_of_update hp hm)

theorem Owned.register {active : Server.ActiveClients} {poll : Nat → Option Poll}
    {owner : Nat → Text} (h : Owned active poll owner) (uuid : Text) (n : Nat) :
    ∃ owner', Owned (active.register uuid).2
      (Function.update poll n (some ⟨uuid, .waiting (active.register uuid).1⟩)) owner' := by
  cases hentry : active.clients.lookup uuid with
  | some object =>
    rw [Server.ActiveClients.register_of_some hentry]
    refine ⟨owner, h.entry, fun m client object' hm ↦ ?_⟩
    by_cases hmn : m = n
    · rw [hmn, Function.update_self] at hm
      cases hm
      exact h.entry uuid object hentry
    · rw [Function.update_of_ne hmn] at hm
      exact h.waiting m client object' hm
  | none =>
    rw [Server.ActiveClients.register_of_none hentry]
    -- the new object belongs to the client
    have hold : ∀ client object, owner object = client ∧ object < active.created →
        Function.update owner active.created uuid object = client ∧ object < active.created + 1 := by
      rintro client object ⟨howns, hlt⟩
      rw [Function.update_of_ne (Nat.ne_of_lt hlt)]
      exact ⟨howns, Nat.lt_succ_of_lt hlt⟩
    refine ⟨Function.update owner active.created uuid, fun client object hlookup ↦ ?_,
      fun m client object hm ↦ ?_⟩
    · by_cases hclient : client = uuid
      · rw [hclient, AList.lookup_insert] at hlookup
        cases hlookup
        exact ⟨by rw [Function.update_self, hclient], Nat.lt_succ_self _⟩
      · rw [AList.lookup_insert_ne hclient] at hlookup
        exact hold client object (h.entry client object hlookup)
    · by_cases hmn : m = n
      · rw [hmn, Function.update_self] at hm
        cases hm
        exact ⟨Function.update_self .., Nat.lt_succ_self _⟩
      · rw [Function.update_of_ne hmn] at hm
        exact hold client object (h.waiting m client object hm)

theorem Inv.numbered_update {σ : Polls κ} (h : Inv σ) {n : Nat} {p : Poll}
    (hn : σ.poll n = some p) {p' : Option Poll} (hp' : ∀ q, p' = some q → q.uuid = p.uuid)
    (uuid : Text) (m : Nat) (hphase : σ.phase uuid = .polling m) :
    m < σ.started ∧ ∀ q, Function.update σ.poll n p' m = some q → q.uuid = uuid := by
  obtain ⟨hlt, hall⟩ := h.numbered uuid m hphase
  refine ⟨hlt, fun q hq ↦ ?_⟩
  by_cases hmn : m = n
  · rw [hmn, Function.update_self] at hq
    rw [hp' q hq]
    rw [hmn] at hall
    exact hall p hn
  · rw [Function.update_of_ne hmn] at hq
    exact hall q hq

theorem Inv.bounded_update {σ : Polls κ} (h : Inv σ) {n : Nat} {p : Poll} (hn : σ.poll n = some p)
    (p' : Option Poll) (m : Nat) (q : Poll) (hm : Function.update σ.poll n p' m = some q) :
    m < σ.started := by
  by_cases hmn : m = n
  · rw [hmn]
    exact h.bounded n p hn
  · rw [Function.update_of_ne hmn] at hm
    exact h.bounded m q hm

/-! ## 4. The steps of the clients -/

theorem Inv.list {σ : Polls κ} (h : Inv σ) (uuid : Text) :
    Inv { σ with
      phase := Function.update σ.phase uuid .listed
      listedAt := Function.update σ.listedAt uuid σ.journal.length } where
  due client hunseen := by
    by_cases hclient : client = uuid
    · -- nothing is unseen right after the list
      rw [hasUnseen, hclient] at hunseen
      simp at hunseen
    · have hsame : σ.hasUnseen client = true := by
        rw [hasUnseen] at hunseen ⊢
        simpa [Function.update_of_ne hclient] using hunseen
      have hdue := h.due client hsame
      simpa only [IsComing, IsDue, Function.update_of_ne hclient] using hdue
  owned := h.owned
  bounded := h.bounded
  numbered client n hphase := by
    have hne : client ≠ uuid := by
      rintro rfl
      change Function.update σ.phase client .listed client = _ at hphase
      rw [Function.update_self] at hphase
      cases hphase
    exact h.numbered client n (by rwa [← Function.update_of_ne hne LoopPhase.listed σ.phase])
  listed client := by
    by_cases hclient : client = uuid
    · simp [hclient]
    · simpa [Function.update_of_ne hclient] using h.listed client
  missed := h.missed

theorem Inv.register {σ : Polls κ} (h : Inv σ) {uuid : Text} (hphase : σ.phase uuid = .listed) :
    Inv { σ with
      active := (σ.active.register uuid).2
      poll := Function.update σ.poll σ.started (some ⟨uuid, .waiting (σ.active.register uuid).1⟩)
      started := σ.started + 1
      phase := Function.update σ.phase uuid (.polling σ.started) } where
  due client hunseen := by
    refine (h.due client hunseen).imp_right fun hdue ↦ ?_
    obtain ⟨owner, howner⟩ := h.owned
    by_cases hclient : client = uuid
    · -- the entry holds the permit already
      rw [IsDue, hclient, hphase] at hdue
      obtain ⟨object, hentry, hpermit⟩ := hdue
      rw [IsDue, hclient, Server.ActiveClients.register_of_some hentry]
      simp only [Function.update_self]
      intro object' hpoll
      cases hpoll
      exact hpermit
    · refine hdue.frame (Function.update_of_ne hclient ..) (fun object _ hentry ↦ ?_)
        (fun n object hn hold ↦ ?_) fun object href hpermit ↦ ?_
      · rw [← hentry]
        exact Server.ActiveClients.lookup_register_of_ne hclient
      · change Function.update σ.poll σ.started _ n = _ at hn
        by_cases hstarted : n = σ.started
        · rw [hstarted, Function.update_self] at hn
          cases hn
          exact absurd rfl hclient
        · rwa [Function.update_of_ne hstarted] at hn
      · -- an object that is in use is not the new one
        have hlt : object < σ.active.created := by
          rcases href with hentry | ⟨n, hn⟩
          · exact (howner.entry client object hentry).2
          · exact (howner.waiting n client object hn).2
        rw [← hpermit]
        show (σ.active.register uuid).2.permit object = _
        rw [Server.ActiveClients.register]
        split
        · rfl
        · exact Function.update_of_ne (Nat.ne_of_lt hlt) ..
  owned := by
    obtain ⟨owner, howner⟩ := h.owned
    exact howner.register uuid σ.started
  bounded n p hn := by
    change Function.update σ.poll σ.started _ n = _ at hn
    by_cases hstarted : n = σ.started
    · rw [hstarted]
      exact Nat.lt_succ_self _
    · rw [Function.update_of_ne hstarted] at hn
      exact Nat.lt_succ_of_lt (h.bounded n p hn)
  numbered client n hn := by
    change Function.update σ.phase uuid _ client = _ at hn
    by_cases hclient : client = uuid
    · rw [hclient, Function.update_self] at hn
      cases hn
      refine ⟨Nat.lt_succ_self _, fun p hp ↦ ?_⟩
      change Function.update σ.poll σ.started _ σ.started = _ at hp
      rw [Function.update_self] at hp
      cases hp
      exact hclient.symm
    · rw [Function.update_of_ne hclient] at hn
      obtain ⟨hlt, hall⟩ := h.numbered client n hn
      refine ⟨Nat.lt_succ_of_lt hlt, fun p hp ↦ hall p ?_⟩
      change Function.update σ.poll σ.started _ n = _ at hp
      rwa [Function.update_of_ne (Nat.ne_of_lt hlt)] at hp
  listed := h.listed
  missed := h.missed

/-- The client does not wait for a poll any more. -/
theorem Inv.idle {σ : Polls κ} (h : Inv σ) (uuid : Text) {missed : Text → Bool}
    (hmissed : ∀ client, missed client = false) :
    Inv { σ with phase := Function.update σ.phase uuid .idle, missed := missed } where
  due client hunseen := by
    refine (h.due client hunseen).imp_right fun hdue ↦ ?_
    by_cases hclient : client = uuid
    · exact isDue_of_idle (by rw [hclient]; exact Function.update_self ..)
    · simpa only [IsDue, Function.update_of_ne hclient] using hdue
  owned := h.owned
  bounded := h.bounded
  numbered client n hphase := by
    have hne : client ≠ uuid := by
      rintro rfl
      change Function.update σ.phase client .idle client = _ at hphase
      rw [Function.update_self] at hphase
      cases hphase
    exact h.numbered client n (by rwa [← Function.update_of_ne hne LoopPhase.idle σ.phase])
  listed := h.listed
  missed := hmissed

theorem Inv.giveUp {σ : Polls κ} (h : Inv σ) {uuid : Text} {n : Nat}
    (hphase : σ.phase uuid = .polling n) (hnone : ∀ k, ¬ σ.IsComing uuid k)
    (hpermit : ∀ object, σ.poll n = some ⟨uuid, .waiting object⟩ → σ.active.permit object = false) :
    Inv { σ with
      phase := Function.update σ.phase uuid .idle
      missed :=
        match σ.poll n with
        | some ⟨_, .waiting _⟩ => σ.timedOut uuid
        | _ => σ.missed } := by
  apply h.idle
  intro client
  cases hn : σ.poll n with
  | none => exact h.missed client
  | some p =>
    obtain ⟨client', handler⟩ := p
    obtain rfl : client' = uuid := (h.numbered uuid n hphase).2 _ hn
    cases handler with
    | ended woken => exact h.missed client
    | waiting object =>
      exact h.timedOut_eq_false (h.nothingUnseen hphase hn hnone (hpermit object hn)) client

/-! ## 5. The steps of the handlers -/

theorem Inv.wake {σ : Polls κ} (h : Inv σ) {n object : Nat} {uuid : Text}
    (hn : σ.poll n = some ⟨uuid, .waiting object⟩)
    (hok : σ.phase uuid = .polling n ∨ σ.hasUnseen uuid = false) :
    Inv { σ with
      active := σ.active.take object
      poll := Function.update σ.poll n (some ⟨uuid, .ended true⟩) } where
  due client hunseen := by
    refine (h.due client hunseen).imp_right fun hdue ↦ ?_
    obtain ⟨owner, howner⟩ := h.owned
    by_cases hclient : client = uuid
    · -- it is the client's own poll that wakes
      have hpolling : σ.phase uuid = .polling n := hok.resolve_right fun hseen ↦ by
        rw [hclient] at hunseen
        have hcontra := hunseen.symm.trans hseen
        cases hcontra
      rw [IsDue, hclient, hpolling]
      intro object' hpoll
      change Function.update σ.poll n _ n = _ at hpoll
      rw [Function.update_self] at hpoll
      cases hpoll
    · refine hdue.frame rfl (fun _ _ hentry ↦ hentry)
        (fun m object' hm _ ↦ waiting_of_update (by simp) hm) fun object' href hpermit ↦ ?_
      -- the objects of other clients are other objects
      have howns : owner object' = client := by
        rcases href with hentry | ⟨m, hm⟩
        · exact (howner.entry client object' hentry).1
        · exact (howner.waiting m client object' hm).1
      have hne : object' ≠ object := by
        rintro rfl
        exact hclient (howns.symm.trans (howner.waiting n uuid object' hn).1)
      rw [← hpermit]
      exact Function.update_of_ne hne ..
  owned := by
    obtain ⟨owner, howner⟩ := h.owned
    have hupdate := howner.update n (p := some ⟨uuid, .ended true⟩) (by simp)
    exact ⟨owner, hupdate.entry, hupdate.waiting⟩
  bounded := h.bounded_update hn _
  numbered := h.numbered_update hn fun q hq ↦ by
    cases hq
    rfl
  listed := h.listed
  missed := h.missed

theorem Inv.timeout {σ : Polls κ} (h : Inv σ) {n object : Nat} {uuid : Text}
    (hn : σ.poll n = some ⟨uuid, .waiting object⟩) (hpermit : σ.active.permit object = false)
    (hok : σ.phase uuid = .polling n → ∀ k, ¬ σ.IsComing uuid k) :
    Inv { σ with
      poll := Function.update σ.poll n (some ⟨uuid, .ended false⟩)
      missed := if σ.phase uuid = .polling n then σ.timedOut uuid else σ.missed } where
  due client hunseen := (h.due client hunseen).imp_right fun hdue ↦
    hdue.frame rfl (fun _ _ hentry ↦ hentry)
      (fun m object' hm _ ↦ waiting_of_update (by simp) hm) fun _ _ hset ↦ hset
  owned := by
    obtain ⟨owner, howner⟩ := h.owned
    exact ⟨owner, howner.update n (by simp)⟩
  bounded := h.bounded_update hn _
  numbered := h.numbered_update hn fun q hq ↦ by
    cases hq
    rfl
  listed := h.listed
  missed client := by
    by_cases hphase : σ.phase uuid = .polling n
    · simp only [if_pos hphase]
      exact h.timedOut_eq_false (h.nothingUnseen hphase hn (hok hphase) hpermit) client
    · simp only [if_neg hphase]
      exact h.missed client

/-- The entry goes, and with it the permit that was left for the next poll. -/
theorem Inv.removeEntry {σ : Polls κ} (h : Inv σ) {n : Nat} {p : Poll} (hn : σ.poll n = some p)
    (hok : σ.phase p.uuid ≠ .listed ∨ σ.hasUnseen p.uuid = false) :
    Inv { σ with
      active := σ.active.remove p.uuid
      poll := Function.update σ.poll n none } where
  due client hunseen := by
    refine (h.due client hunseen).imp_right fun hdue ↦ hdue.frame rfl (fun object hlisted hentry ↦ ?_)
      (fun m object' hm _ ↦ waiting_of_update (by simp) hm) fun _ _ hset ↦ hset
    by_cases hclient : client = p.uuid
    · rw [hclient] at hunseen hlisted
      rcases hok with hnot | hseen
      · exact absurd hlisted hnot
      · have hcontra := hunseen.symm.trans hseen
        cases hcontra
    · rw [← hentry]
      exact Server.ActiveClients.lookup_remove_of_ne hclient
  owned := by
    obtain ⟨owner, howner⟩ := h.owned
    have hupdate := howner.update n (p := none) (by simp)
    refine ⟨owner, fun client object hentry ↦ ?_, hupdate.waiting⟩
    by_cases hclient : client = p.uuid
    · rw [hclient] at hentry
      have hcontra := hentry.symm.trans (σ.active.lookup_remove_self p.uuid)
      cases hcontra
    · refine howner.entry client object ?_
      rw [← hentry]
      exact (Server.ActiveClients.lookup_remove_of_ne hclient).symm
  bounded := h.bounded_update hn _
  numbered := h.numbered_update hn fun _ hq ↦ nomatch hq
  listed := h.listed
  missed := h.missed

theorem Inv.drop {σ : Polls κ} (h : Inv σ) {n : Nat} {p : Poll} (hn : σ.poll n = some p) :
    Inv { σ with poll := Function.update σ.poll n none } where
  due client hunseen := (h.due client hunseen).imp_right fun hdue ↦
    hdue.frame rfl (fun _ _ hentry ↦ hentry)
      (fun m object' hm _ ↦ waiting_of_update (by simp) hm) fun _ _ hset ↦ hset
  owned := by
    obtain ⟨owner, howner⟩ := h.owned
    exact ⟨owner, howner.update n (by simp)⟩
  bounded := h.bounded_update hn _
  numbered := h.numbered_update hn fun _ hq ↦ nomatch hq
  listed := h.listed
  missed := h.missed

/-! ## 6. The steps of the commits -/

section Commits

variable [DecidableEq κ]

theorem Inv.insert {σ : Polls κ} (h : Inv σ) {k : κ} (hk : σ.unnotified k = none) (uuid : Text) :
    Inv { σ with
      journal := σ.journal ++ [uuid]
      unnotified := Function.update σ.unnotified k (some (σ.journal.length, uuid)) } where
  due client hunseen := by
    by_cases hown : client = uuid
    · -- a record of the client's own changes nothing for it
      have hsame : σ.hasUnseen client = true := by
        rw [hasUnseen, List.drop_append_of_le_length (h.listed client), List.any_append] at hunseen
        simpa [hasUnseen, hown] using hunseen
      refine (h.due client hsame).imp_left ?_
      rintro ⟨k', i, committer, hk', hi⟩
      have hne : k' ≠ k := by
        rintro rfl
        rw [hk] at hk'
        cases hk'
      exact ⟨k', i, committer, by rw [← hk']; exact Function.update_of_ne hne .., hi⟩
    · exact .inl ⟨k, σ.journal.length, uuid, Function.update_self .., h.listed client, Ne.symm hown⟩
  owned := h.owned
  bounded := h.bounded
  numbered := h.numbered
  listed client := by
    have hle := h.listed client
    rw [List.length_append]
    exact Nat.le_add_right_of_le hle
  missed := h.missed

theorem Inv.notify {σ : Polls κ} (h : Inv σ) {k : κ} {i : Nat} {committer : Text}
    (hk : σ.unnotified k = some (i, committer))
    (hok : ∀ uuid, σ.IsComing uuid k → σ.IsReached uuid) :
    Inv { σ with
      active := σ.active.notify committer
      unnotified := Function.update σ.unnotified k none } where
  due client hunseen := by
    have hnotified := σ.active.permit_notify_iff committer
    rcases h.due client hunseen with ⟨k', hcoming⟩ | hdue
    · by_cases hsame : k' = k
      · -- the commit finds the entry of the client
        rw [hsame] at hcoming
        have hreached := hok client hcoming
        obtain ⟨i', committer', hk', -, hne⟩ := hcoming
        rw [hk] at hk'
        cases hk'
        have hwoken : ∀ object, σ.active.clients.lookup client = some object →
            (σ.active.notify committer).permit object = true := fun object hentry ↦
          (hnotified object).mpr (.inr ⟨client, Ne.symm hne, hentry⟩)
        right
        unfold IsReached at hreached
        unfold IsDue
        cases hphase : σ.phase client with
        | idle => trivial
        | listed =>
          rw [hphase] at hreached
          obtain ⟨object, hentry⟩ := Option.isSome_iff_exists.mp hreached
          exact ⟨object, hentry, hwoken object hentry⟩
        | polling n =>
          rw [hphase] at hreached
          exact fun object hpoll ↦ hwoken object (hreached object hpoll)
      · obtain ⟨i', committer', hk', hrest⟩ := hcoming
        exact .inl ⟨k', i', committer', by rw [← hk']; exact Function.update_of_ne hsame .., hrest⟩
    · exact .inr (hdue.frame rfl (fun _ _ hentry ↦ hentry) (fun _ _ hpoll _ ↦ hpoll)
        fun object _ hset ↦ (hnotified object).mpr (.inl hset))
  owned := by
    obtain ⟨owner, howner⟩ := h.owned
    exact ⟨owner, howner.entry, howner.waiting⟩
  bounded := h.bounded
  numbered := h.numbered
  listed := h.listed
  missed := h.missed

/-! ## 7. Runs without lost wake-ups -/

/-- What one step preserves. -/
theorem Inv.next {σ σ' : Polls κ} {a : PollAction κ} (h : Inv σ) (hok : σ.IsHeard a)
    (hstep : Polls.next σ a = some σ') : Inv σ' := by
  cases a with
  | list uuid =>
    rw [Polls.next] at hstep
    split at hstep
    · cases hstep
      exact h.list uuid
    · cases hstep
  | register uuid =>
    rw [Polls.next] at hstep
    split at hstep
    · next hphase =>
      cases hstep
      exact h.register hphase
    · cases hstep
  | wake n =>
    rw [Polls.next] at hstep
    split at hstep
    · next uuid object hn =>
      split at hstep
      · cases hstep
        exact h.wake hn (hok _ hn)
      · cases hstep
    · cases hstep
  | timeout n =>
    rw [Polls.next] at hstep
    split at hstep
    · next uuid object hn =>
      split at hstep
      · cases hstep
      · next hpermit =>
        cases hstep
        exact h.timeout hn (by simpa using hpermit) (hok _ hn)
    · cases hstep
  | remove n =>
    rw [Polls.next] at hstep
    split at hstep
    · next uuid woken hn =>
      cases hstep
      by_cases hphase : σ.phase uuid = .polling n
      · have hnot : σ.phase uuid ≠ .listed := by
          rw [hphase]
          simp
        have hidle := (h.removeEntry hn (.inl hnot)).idle uuid h.missed
        simp only [if_pos hphase]
        exact hidle
      · simp only [if_neg hphase]
        exact h.removeEntry hn ((hok _ hn).resolve_left hphase)
    · cases hstep
  | giveUp uuid =>
    rw [Polls.next] at hstep
    split at hstep
    · next n hphase =>
      cases hstep
      exact h.giveUp hphase hok.1 fun object hn ↦ hok.2 n object hphase hn
    · cases hstep
  | drop n =>
    rw [Polls.next] at hstep
    split at hstep
    · next p hn =>
      split at hstep
      · cases hstep
      · cases hstep
        exact h.drop hn
    · cases hstep
  | insert k uuid =>
    rw [Polls.next] at hstep
    split at hstep
    · cases hstep
    · next hk =>
      cases hstep
      exact h.insert hk uuid
  | notify k =>
    rw [Polls.next] at hstep
    split at hstep
    · next i committer hk =>
      cases hstep
      exact h.notify hk hok
    · cases hstep

/-- In a run in which every notification reaches the poll that is to hear it, no wake-up is lost. -/
theorem noLostWakeup_of_heard {σ : Polls κ} (h : system.Reachable IsHeard σ) : NoLostWakeup σ :=
  (h.invariant (fun σ (hinit : σ = Polls.init) ↦ hinit ▸ Inv.init)
    fun _ _ _ hinv hok hstep ↦ hinv.next hok hstep).noLostWakeup

end Commits

-- A client polls, and another one commits.
def heardActions : List (PollAction Nat) :=
  [.list "a".toList, .register "a".toList, .insert 0 "b".toList, .notify 0]

theorem noLostWakeup_heard :
    (system.run (Polls.init : Polls Nat) heardActions).isSome ∧
      ∀ σ, system.run (Polls.init : Polls Nat) heardActions = some σ → NoLostWakeup σ := by
  refine ⟨by decide, fun σ hrun ↦ ?_⟩
  obtain ⟨σ₁, hlist, hrun⟩ := Option.bind_eq_some_iff.mp hrun
  obtain ⟨σ₂, hregister, hrun⟩ := Option.bind_eq_some_iff.mp hrun
  obtain ⟨σ₃, hinsert, hrun⟩ := Option.bind_eq_some_iff.mp hrun
  obtain ⟨σ₄, hnotify, hrun⟩ := Option.bind_eq_some_iff.mp hrun
  cases hrun
  have hlisted : system.Reachable IsHeard σ₁ :=
    System.Reachable.step (.list "a".toList) (System.Reachable.init rfl) trivial hlist
  have hregistered : system.Reachable IsHeard σ₂ :=
    System.Reachable.step (.register "a".toList) hlisted trivial hregister
  have hpolling : system.Reachable IsHeard σ₃ :=
    System.Reachable.step (.insert 0 "b".toList) hregistered trivial hinsert
  refine noLostWakeup_of_heard (System.Reachable.step (.notify 0) hpolling (fun uuid _ ↦ ?_) hnotify)
  cases hlist
  cases hregister
  cases hinsert
  by_cases huuid : uuid = "a".toList
  · rw [huuid]
    have hreached : ∀ object : Nat, (some ⟨"a".toList, .waiting 0⟩ : Option Poll) =
        some ⟨"a".toList, .waiting object⟩ → some 0 = some object := by
      intro object heq
      cases heq
      rfl
    exact hreached
  · have hidle : Function.update (Function.update (fun _ ↦ LoopPhase.idle) "a".toList .listed)
        "a".toList (.polling 0) uuid = .idle := by
      rw [Function.update_of_ne huuid, Function.update_of_ne huuid]
    unfold IsReached
    change match Function.update (Function.update (fun _ ↦ LoopPhase.idle) "a".toList .listed)
        "a".toList (.polling 0) uuid with
      | .idle => True
      | .listed => _
      | .polling n => _
    rw [hidle]
    trivial

-- The commit falls between the list and the poll, which then times out.
def unheardActions : List (PollAction Nat) :=
  [.list "a".toList, .insert 0 "b".toList, .notify 0, .register "a".toList, .timeout 0]

theorem noLostWakeup_fails :
    ¬ ∀ σ : Polls Nat, system.Reachable System.anyAction σ → NoLostWakeup σ := by
  intro h
  have hsome : (system.run (Polls.init : Polls Nat) unheardActions).isSome := by decide
  obtain ⟨σ, hrun⟩ := Option.isSome_iff_exists.mp hsome
  have hmissed : (system.run (Polls.init : Polls Nat) unheardActions).map
      (fun σ ↦ σ.missed "a".toList) = some true := by decide
  have hlost := (h σ ((System.Reachable.init rfl).run hrun) "a".toList).1
  rw [hrun, Option.map_some, hlost] at hmissed
  cases hmissed

end Polls

end CooklangSync.System
