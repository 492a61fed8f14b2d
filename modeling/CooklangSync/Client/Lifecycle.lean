import CooklangSync.Client.Errors
import CooklangSync.Theory.Run

/-!
# Lifecycle — a running client, from its start to its end

`run_async` joins the index loop and the loops of the syncer, and ends when all of them have ended or
one has failed.  A single task polls them: between two await points of a loop no other one runs.
Only `cancel` comes from another thread, at any time.  The results of the passes, of the polls and of
the timers are those of the environment.
-/

namespace CooklangSync.Client

open Theory

def channelSize : Nat := 100

/-! ## 1. States -/

inductive SyncStatus where
  | idle
  | syncing
  | indexing
  | downloading
  | uploading
  deriving DecidableEq, Repr

/-- What `run_async` fails with.  A failed download check becomes a text, except where the caller
has to know the cause. -/
inductive RunError where
  | sync (error : SyncError)
  | checkDownloadFailed (error : SyncError)
  | channelSend
  deriving DecidableEq, Repr

def RunError.ofDownload : SyncError → RunError
  | .unauthorized => .sync .unauthorized
  | .paymentRequired => .sync .paymentRequired
  | e => .checkDownloadFailed e

/-- What the listener is told. -/
inductive Notice where
  | status (status : SyncStatus)
  | complete (success : Bool) (error : Option RunError)
  deriving DecidableEq, Repr

inductive IndexLoop where
  | start
  | sending
  | resting
  | done
  deriving DecidableEq, Repr

inductive DownloadLoop where
  | start
  | checking
  | polling
  | done
  deriving DecidableEq, Repr

inductive UploadLoop where
  | delayed
  | start
  | checking
  | resting
  | done
  deriving DecidableEq, Repr

/-- A client that only downloads has no upload loop.  `changes` counts the index passes that found
a change, and `covered` those before the last upload pass. -/
structure Lifecycle where
  cancelled : Bool
  index : IndexLoop
  download : DownloadLoop
  upload : Option UploadLoop
  queued : Nat
  notices : List Notice
  result : Option (Except RunError Unit)
  changes : Nat
  covered : Nat

/-- The steps of the loops, each up to its next await point.  A loop stops where it starts over or
where it rests; `sentClosed` ends a send whose receiver is gone. -/
inductive LifecycleAction where
  | cancel
  | index (result : Except SyncError Bool)
  | sent
  | sentClosed (fails : Bool)
  | indexWake
  | indexStop
  | download
  | downloaded (result : Except SyncError Bool)
  | polled (result : Except SyncError Unit)
  | downloadStop
  | uploadDelayOver
  | upload
  | uploaded (result : Except SyncError Bool)
  | uploadWake
  | uploadNext
  | uploadStop
  | complete

namespace Lifecycle

/-! ## 2. Steps -/

def start (downloadOnly : Bool) : Lifecycle where
  cancelled := false
  index := .start
  download := .start
  upload := if downloadOnly then none else some .delayed
  queued := 0
  notices := [.status .syncing]
  result := none
  changes := 0
  covered := 0

def notify (σ : Lifecycle) (status : SyncStatus) : Lifecycle :=
  { σ with notices := σ.notices ++ [.status status] }

/-- The others are dropped where they are. -/
def fail (σ : Lifecycle) (e : RunError) : Lifecycle :=
  { σ with result := some (.error e), notices := σ.notices ++ [.complete false (some e)] }

/-- The receiver belongs to the upload loop, or to the syncer while there is none. -/
def receives (σ : Lifecycle) : Bool :=
  match σ.upload with
  | some loop => loop ≠ .done
  | none => σ.download ≠ .done

/-- The message that finds the channel full is taken in, and its sender waits. -/
def send (σ : Lifecycle) : Lifecycle :=
  if σ.receives then
    let τ := { σ with queued := σ.queued + 1, changes := σ.changes + 1 }
    -- `send` also flushes: it returns when the channel has room for the next message
    if channelSize < τ.queued then { τ with index := .sending }
    else { τ.notify .idle with index := .resting }
  else σ.fail .channelSend

def indexPass (σ : Lifecycle) : Except SyncError Bool → Lifecycle
  | .error e => (σ.notify .indexing).fail (.sync e)
  | .ok false => { (σ.notify .indexing).notify .idle with index := .resting }
  | .ok true => (σ.notify .indexing).send

def isOver (σ : Lifecycle) : Bool :=
  σ.index = .done && σ.download = .done && (σ.upload = none || σ.upload = some .done)

def next (σ : Lifecycle) (a : LifecycleAction) : Option Lifecycle :=
  if σ.result.isSome then none
  else
    match a with
    | .cancel => if σ.cancelled then none else some { σ with cancelled := true }
    | .index result =>
      if σ.index = .start ∧ σ.cancelled = false then some (σ.indexPass result) else none
    | .sent =>
      if σ.index = .sending ∧ σ.receives ∧ σ.queued ≤ channelSize then
        some { σ.notify .idle with index := .resting }
      else none
    | .sentClosed fails =>
      if σ.index = .sending ∧ σ.receives = false then
        some (if fails then σ.fail .channelSend else { σ.notify .idle with index := .resting })
      else none
    | .indexWake => if σ.index = .resting then some { σ with index := .start } else none
    | .indexStop =>
      if (σ.index = .start ∨ σ.index = .resting) ∧ σ.cancelled then some { σ with index := .done }
      else none
    | .download =>
      if σ.download = .start ∧ σ.cancelled = false then
        some { σ.notify .downloading with download := .checking }
      else none
    | .downloaded result =>
      if σ.download = .checking then
        some (match result with
          | .ok _ => { σ.notify .idle with download := .polling }
          | .error e => σ.fail (.ofDownload e))
      else none
    | .polled result =>
      if σ.download = .polling then
        some (match result with
          | .ok _ => { σ with download := .start }
          | .error e => σ.fail (.sync e))
      else none
    | .downloadStop =>
      if (σ.download = .start ∨ σ.download = .polling) ∧ σ.cancelled then
        some { σ with download := .done }
      else none
    | .uploadDelayOver =>
      if σ.upload = some .delayed then some { σ with upload := some .start } else none
    | .upload =>
      if σ.upload = some .start ∧ σ.cancelled = false then
        some { σ.notify .uploading with upload := some .checking, covered := σ.changes }
      else none
    | .uploaded result =>
      if σ.upload = some .checking then
        some (match result with
          | .ok true => { σ.notify .idle with upload := some .resting }
          -- chunks were missing: the next pass follows at once, under the same status
          | .ok false => { σ with upload := some .start }
          | .error e => σ.fail (.sync e))
      else none
    | .uploadWake => if σ.upload = some .resting then some { σ with upload := some .start } else none
    | .uploadNext =>
      if σ.upload = some .resting ∧ 0 < σ.queued then
        some { σ with upload := some .start, queued := σ.queued - 1 }
      else none
    | .uploadStop =>
      if (σ.upload = some .start ∨ σ.upload = some .resting) ∧ σ.cancelled then
        some { σ with upload := some .done }
      else none
    | .complete =>
      if σ.isOver then
        some { σ with result := some (.ok ()), notices := σ.notices ++ [.complete true none] }
      else none

def system (downloadOnly : Bool) : System Lifecycle LifecycleAction where
  init σ := σ = start downloadOnly
  step := next

/-! ## 3. What a step does -/

/-- The steps of a run that goes on, with what each needs and what it leaves. -/
inductive Step (σ : Lifecycle) : LifecycleAction → Lifecycle → Prop where
  | cancel (h : σ.cancelled = false) : Step σ .cancel { σ with cancelled := true }
  | indexError {e : SyncError} (h : σ.index = .start) (hc : σ.cancelled = false) :
      Step σ (.index (.error e)) ((σ.notify .indexing).fail (.sync e))
  | indexSame (h : σ.index = .start) (hc : σ.cancelled = false) :
      Step σ (.index (.ok false)) { (σ.notify .indexing).notify .idle with index := .resting }
  | indexSent (h : σ.index = .start) (hc : σ.cancelled = false) (hr : σ.receives = true)
      (hq : σ.queued + 1 ≤ channelSize) :
      Step σ (.index (.ok true))
        { { σ.notify .indexing with queued := σ.queued + 1, changes := σ.changes + 1 }.notify .idle with
          index := .resting }
  | indexFull (h : σ.index = .start) (hc : σ.cancelled = false) (hr : σ.receives = true)
      (hq : channelSize < σ.queued + 1) :
      Step σ (.index (.ok true))
        { σ.notify .indexing with
          queued := σ.queued + 1
          changes := σ.changes + 1
          index := .sending }
  | indexUnheard (h : σ.index = .start) (hc : σ.cancelled = false) (hr : σ.receives = false) :
      Step σ (.index (.ok true)) ((σ.notify .indexing).fail .channelSend)
  | sent (h : σ.index = .sending) (hr : σ.receives = true) (hq : σ.queued ≤ channelSize) :
      Step σ .sent { σ.notify .idle with index := .resting }
  | closedError (h : σ.index = .sending) (hr : σ.receives = false) :
      Step σ (.sentClosed true) (σ.fail .channelSend)
  | closed (h : σ.index = .sending) (hr : σ.receives = false) :
      Step σ (.sentClosed false) { σ.notify .idle with index := .resting }
  | indexWake (h : σ.index = .resting) : Step σ .indexWake { σ with index := .start }
  | indexStop (h : σ.index = .start ∨ σ.index = .resting) (hc : σ.cancelled = true) :
      Step σ .indexStop { σ with index := .done }
  | download (h : σ.download = .start) (hc : σ.cancelled = false) :
      Step σ .download { σ.notify .downloading with download := .checking }
  | downloadError {e : SyncError} (h : σ.download = .checking) :
      Step σ (.downloaded (.error e)) (σ.fail (.ofDownload e))
  | downloaded {value : Bool} (h : σ.download = .checking) :
      Step σ (.downloaded (.ok value)) { σ.notify .idle with download := .polling }
  | pollError {e : SyncError} (h : σ.download = .polling) :
      Step σ (.polled (.error e)) (σ.fail (.sync e))
  | polled {value : Unit} (h : σ.download = .polling) :
      Step σ (.polled (.ok value)) { σ with download := .start }
  | downloadStop (h : σ.download = .start ∨ σ.download = .polling) (hc : σ.cancelled = true) :
      Step σ .downloadStop { σ with download := .done }
  | uploadDelayOver (h : σ.upload = some .delayed) :
      Step σ .uploadDelayOver { σ with upload := some .start }
  | upload (h : σ.upload = some .start) (hc : σ.cancelled = false) :
      Step σ .upload { σ.notify .uploading with upload := some .checking, covered := σ.changes }
  | uploadError {e : SyncError} (h : σ.upload = some .checking) :
      Step σ (.uploaded (.error e)) (σ.fail (.sync e))
  | uploaded (h : σ.upload = some .checking) :
      Step σ (.uploaded (.ok true)) { σ.notify .idle with upload := some .resting }
  | uploadAgain (h : σ.upload = some .checking) :
      Step σ (.uploaded (.ok false)) { σ with upload := some .start }
  | uploadWake (h : σ.upload = some .resting) :
      Step σ .uploadWake { σ with upload := some .start }
  | uploadNext (h : σ.upload = some .resting) (hq : 0 < σ.queued) :
      Step σ .uploadNext { σ with upload := some .start, queued := σ.queued - 1 }
  | uploadStop (h : σ.upload = some .start ∨ σ.upload = some .resting) (hc : σ.cancelled = true) :
      Step σ .uploadStop { σ with upload := some .done }
  | complete (h : σ.isOver = true) :
      Step σ .complete
        { σ with result := some (.ok ()), notices := σ.notices ++ [.complete true none] }

variable {σ σ' : Lifecycle} {a : LifecycleAction}

theorem send_of_closed (hr : σ.receives = false) : σ.send = σ.fail .channelSend := by
  rw [send, hr]
  rfl

theorem send_of_room (hr : σ.receives = true) (hroom : σ.queued + 1 ≤ channelSize) :
    σ.send = { { σ with queued := σ.queued + 1, changes := σ.changes + 1 }.notify .idle with
      index := .resting } := by
  rw [send, if_pos hr]
  exact if_neg (Nat.not_lt.mpr hroom)

theorem send_of_full (hr : σ.receives = true) (hfull : channelSize < σ.queued + 1) :
    σ.send = { σ with queued := σ.queued + 1, changes := σ.changes + 1, index := .sending } := by
  rw [send, if_pos hr]
  exact if_pos hfull

theorem step_cases (h : next σ a = some σ') : σ.result = none ∧ Step σ a σ' := by
  unfold next at h
  rw [Option.ite_none_left_eq_some] at h
  obtain ⟨hrunning, h⟩ := h
  refine ⟨Option.not_isSome_iff_eq_none.mp hrunning, ?_⟩
  cases a with
  | cancel =>
    rw [Option.ite_none_left_eq_some, Option.some.injEq] at h
    obtain ⟨hc, rfl⟩ := h
    exact .cancel (Bool.eq_false_iff.mpr hc)
  | index result =>
    rw [Option.ite_none_right_eq_some, Option.some.injEq] at h
    obtain ⟨⟨hstart, hc⟩, rfl⟩ := h
    rcases result with e | _ | _
    · exact .indexError hstart hc
    · exact .indexSame hstart hc
    · rw [indexPass]
      cases hr : (σ.notify .indexing).receives with
      | false =>
        rw [send_of_closed hr]
        exact .indexUnheard hstart hc hr
      | true =>
        by_cases hq : σ.queued + 1 ≤ channelSize
        · rw [send_of_room hr hq]
          exact .indexSent hstart hc hr hq
        · rw [send_of_full hr (Nat.lt_of_not_le hq)]
          exact .indexFull hstart hc hr (Nat.lt_of_not_le hq)
  | sent =>
    rw [Option.ite_none_right_eq_some, Option.some.injEq] at h
    obtain ⟨⟨hsending, hr, hq⟩, rfl⟩ := h
    exact .sent hsending hr hq
  | sentClosed fails =>
    rw [Option.ite_none_right_eq_some, Option.some.injEq] at h
    obtain ⟨⟨hsending, hr⟩, rfl⟩ := h
    cases fails with
    | false => exact .closed hsending hr
    | true => exact .closedError hsending hr
  | indexWake =>
    rw [Option.ite_none_right_eq_some, Option.some.injEq] at h
    obtain ⟨hresting, rfl⟩ := h
    exact .indexWake hresting
  | indexStop =>
    rw [Option.ite_none_right_eq_some, Option.some.injEq] at h
    obtain ⟨⟨hfree, hc⟩, rfl⟩ := h
    exact .indexStop hfree hc
  | download =>
    rw [Option.ite_none_right_eq_some, Option.some.injEq] at h
    obtain ⟨⟨hstart, hc⟩, rfl⟩ := h
    exact .download hstart hc
  | downloaded result =>
    rw [Option.ite_none_right_eq_some, Option.some.injEq] at h
    obtain ⟨hchecking, rfl⟩ := h
    cases result with
    | error e => exact .downloadError hchecking
    | ok value => exact .downloaded hchecking
  | polled result =>
    rw [Option.ite_none_right_eq_some, Option.some.injEq] at h
    obtain ⟨hpolling, rfl⟩ := h
    cases result with
    | error e => exact .pollError hpolling
    | ok value => exact .polled hpolling
  | downloadStop =>
    rw [Option.ite_none_right_eq_some, Option.some.injEq] at h
    obtain ⟨⟨hfree, hc⟩, rfl⟩ := h
    exact .downloadStop hfree hc
  | uploadDelayOver =>
    rw [Option.ite_none_right_eq_some, Option.some.injEq] at h
    obtain ⟨hdelayed, rfl⟩ := h
    exact .uploadDelayOver hdelayed
  | upload =>
    rw [Option.ite_none_right_eq_some, Option.some.injEq] at h
    obtain ⟨⟨hstart, hc⟩, rfl⟩ := h
    exact .upload hstart hc
  | uploaded result =>
    rw [Option.ite_none_right_eq_some, Option.some.injEq] at h
    obtain ⟨hchecking, rfl⟩ := h
    rcases result with e | _ | _
    · exact .uploadError hchecking
    · exact .uploadAgain hchecking
    · exact .uploaded hchecking
  | uploadWake =>
    rw [Option.ite_none_right_eq_some, Option.some.injEq] at h
    obtain ⟨hresting, rfl⟩ := h
    exact .uploadWake hresting
  | uploadNext =>
    rw [Option.ite_none_right_eq_some, Option.some.injEq] at h
    obtain ⟨⟨hresting, hqueued⟩, rfl⟩ := h
    exact .uploadNext hresting hqueued
  | uploadStop =>
    rw [Option.ite_none_right_eq_some, Option.some.injEq] at h
    obtain ⟨⟨hfree, hc⟩, rfl⟩ := h
    exact .uploadStop hfree hc
  | complete =>
    rw [Option.ite_none_right_eq_some, Option.some.injEq] at h
    obtain ⟨hover, rfl⟩ := h
    exact .complete hover

/-! ## 4. Invariants -/

section Fields

variable (σ : Lifecycle) (status : SyncStatus) (e : RunError)

@[simp] theorem cancelled_notify : (σ.notify status).cancelled = σ.cancelled := rfl
@[simp] theorem index_notify : (σ.notify status).index = σ.index := rfl
@[simp] theorem download_notify : (σ.notify status).download = σ.download := rfl
@[simp] theorem upload_notify : (σ.notify status).upload = σ.upload := rfl
@[simp] theorem queued_notify : (σ.notify status).queued = σ.queued := rfl
@[simp] theorem result_notify : (σ.notify status).result = σ.result := rfl
@[simp] theorem changes_notify : (σ.notify status).changes = σ.changes := rfl
@[simp] theorem covered_notify : (σ.notify status).covered = σ.covered := rfl

@[simp] theorem cancelled_fail : (σ.fail e).cancelled = σ.cancelled := rfl
@[simp] theorem index_fail : (σ.fail e).index = σ.index := rfl
@[simp] theorem download_fail : (σ.fail e).download = σ.download := rfl
@[simp] theorem upload_fail : (σ.fail e).upload = σ.upload := rfl
@[simp] theorem queued_fail : (σ.fail e).queued = σ.queued := rfl
@[simp] theorem result_fail : (σ.fail e).result = some (.error e) := rfl
@[simp] theorem changes_fail : (σ.fail e).changes = σ.changes := rfl
@[simp] theorem covered_fail : (σ.fail e).covered = σ.covered := rfl

end Fields

/-- A loop ends only when it has been cancelled.  What the index loop has found is in the channel or
has been covered by an upload pass; with nobody to take it out, the channel fills up. -/
structure Inv (σ : Lifecycle) : Prop where
  index : σ.index = .done → σ.cancelled = true
  download : σ.download = .done → σ.cancelled = true
  upload : σ.upload = some .done → σ.cancelled = true
  behind : σ.covered ≤ σ.changes
  covered : σ.upload = some .checking ∨ σ.upload = some .resting → σ.changes ≤ σ.covered + σ.queued
  alone : σ.upload = none → σ.queued = σ.changes ∧ σ.changes ≤ channelSize + 1
  blocked : σ.upload = none → σ.changes = channelSize + 1 → σ.index = .sending ∨ σ.cancelled = true

theorem inv_start (downloadOnly : Bool) : Inv (start downloadOnly) where
  index h := by cases h
  download h := by cases h
  upload h := by cases downloadOnly <;> cases h
  behind := Nat.le_refl _
  covered h := by cases downloadOnly <;> rcases h with h | h <;> cases h
  alone _ := ⟨rfl, Nat.zero_le _⟩
  blocked _ h := by cases h

/-- While the run is not cancelled there is a receiver. -/
theorem Inv.receives (h : σ.Inv) (hc : σ.cancelled = false) : σ.receives = true := by
  unfold Lifecycle.receives
  cases hupload : σ.upload with
  | none =>
    have hdone : σ.download ≠ .done := fun hdone ↦ by simp [h.download hdone] at hc
    simpa using hdone
  | some loop =>
    have hdone : loop ≠ .done := fun hdone ↦ by simp [h.upload (hdone ▸ hupload)] at hc
    simpa using hdone

theorem Inv.next (h : σ.Inv) (hstep : Lifecycle.next σ a = some σ') : σ'.Inv := by
  obtain ⟨hrunning, hstep⟩ := step_cases hstep
  have hreceives := h.receives
  obtain ⟨hindex, hdownload, hupload, hbehind, hcovered, halone, hblocked⟩ := h
  -- an index pass without an upload loop begins only where the channel has room
  have hfew : σ.index = .start → σ.cancelled = false → σ.upload = none →
      σ.changes ≤ channelSize := by
    intro hstart hc hnone
    have hle := (halone hnone).2
    have hne : σ.changes ≠ channelSize + 1 := fun heq ↦ by simp_all
    omega
  cases hstep with
  | indexSent hstart hc _ hroom =>
    refine ⟨(fun h ↦ by cases h), hdownload, hupload, Nat.le_succ_of_le hbehind,
      fun h ↦ Nat.succ_le_succ (hcovered h), fun h ↦ ?_, fun h hfull ↦ ?_⟩
    · exact ⟨congrArg _ (halone h).1, Nat.succ_le_succ (hfew hstart hc h)⟩
    · have hfull : σ.changes + 1 = channelSize + 1 := hfull
      have hsame := (halone h).1
      omega
  | indexFull hstart hc =>
    refine ⟨(fun h ↦ by cases h), hdownload, hupload, Nat.le_succ_of_le hbehind,
      fun h ↦ Nat.succ_le_succ (hcovered h), fun h ↦ ?_, fun _ _ ↦ .inl rfl⟩
    exact ⟨congrArg _ (halone h).1, Nat.succ_le_succ (hfew hstart hc h)⟩
  | sent hsending hr hroom =>
    have hended : σ.upload = none → σ.changes ≠ channelSize + 1 := by
      intro hnone hfull
      have hsame := (halone hnone).1
      omega
    constructor <;> simp_all
  | closed hsending hr =>
    -- the receiver is gone, so that the run has been cancelled
    have hc : σ.cancelled = true := by
      by_contra hc
      rw [hreceives (Bool.eq_false_iff.mpr hc)] at hr
      cases hr
    constructor <;> simp_all
  | _ => constructor <;> simp_all

theorem inv_of_reachable {downloadOnly : Bool} (h : (system downloadOnly).Reachable System.anyAction σ) :
    σ.Inv :=
  h.invariant (fun _ h ↦ h ▸ inv_start downloadOnly) fun _ _ _ hinv _ hstep ↦ hinv.next hstep

end Lifecycle

end CooklangSync.Client
