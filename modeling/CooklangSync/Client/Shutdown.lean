import CooklangSync.Client.Lifecycle

/-!
# Shutdown — what a running client owes its caller

A cancelled client starts nothing any more, finishes what is under way and ends (`cancelled_ends`).
Until then no change that the index loop has found is left to a timer (`change_covered`), unless the
client only downloads: then nobody reads the channel, and the index loop stops for good when it is
full (`index_blocked`).  The listener is told how the run ends, once (`listener_told`).
-/

namespace CooklangSync.Client

open Theory

namespace Lifecycle

variable {σ σ' : Lifecycle} {a : LifecycleAction}

/-! ## 1. The result -/

/-- What a step that fails fails with. -/
def failureOf : LifecycleAction → Option RunError
  | .index (.error e) => some (.sync e)
  | .sentClosed true => some .channelSend
  | .downloaded (.error e) => some (.ofDownload e)
  | .polled (.error e) => some (.sync e)
  | .uploaded (.error e) => some (.sync e)
  | _ => none

/-- What the run returns when it ends after some steps: the failure there is, if there is one. -/
def resultOf (as : List LifecycleAction) : Except RunError Unit :=
  match as.findSome? failureOf with
  | some e => .error e
  | none => .ok ()

theorem resultOf_cons_of_none (h : failureOf a = none) (as : List LifecycleAction) :
    resultOf (a :: as) = resultOf as := by
  rw [resultOf, List.findSome?_cons, h, resultOf]

/-- A step fails and ends the run with its failure, or completes it, or the run goes on. -/
theorem result_step (h : σ.Inv) (hrunning : σ.result = none) (hstep : Step σ a σ') :
    (σ'.result = none ∧ failureOf a = none) ∨ σ'.result = some (resultOf [a]) := by
  cases hstep with
  | indexError => exact .inr rfl
  | closedError => exact .inr rfl
  | downloadError => exact .inr rfl
  | pollError => exact .inr rfl
  | uploadError => exact .inr rfl
  | complete => exact .inr rfl
  -- a pass begins before the run is cancelled, and then there is a receiver
  | indexUnheard _ hc hr => simp [h.receives hc] at hr
  | _ => exact .inl ⟨hrunning, rfl⟩

theorem next_of_result {r : Except RunError Unit} (h : σ.result = some r) (a : LifecycleAction) :
    next σ a = none := by
  unfold next
  rw [h]
  rfl

theorem run_of_result {downloadOnly : Bool} {as : List LifecycleAction} {r : Except RunError Unit}
    (h : σ.result = some r) (hrun : (system downloadOnly).run σ as = some σ') : as = [] ∧ σ' = σ := by
  cases as with
  | nil =>
    cases hrun
    exact ⟨rfl, rfl⟩
  | cons a as =>
    rw [System.run, show (system downloadOnly).step σ a = none from next_of_result h a] at hrun
    cases hrun

theorem result_run {downloadOnly : Bool} {as : List LifecycleAction} {r : Except RunError Unit}
    (h : σ.Inv) (hrunning : σ.result = none) (hrun : (system downloadOnly).run σ as = some σ')
    (hr : σ'.result = some r) : r = resultOf as := by
  induction as generalizing σ with
  | nil =>
    cases hrun
    rw [hrunning] at hr
    cases hr
  | cons a as ih =>
    obtain ⟨σ₁, hstep, hrun⟩ := Option.bind_eq_some_iff.mp hrun
    rcases result_step h hrunning (step_cases hstep).2 with ⟨hon, hfailure⟩ | hend
    · rw [resultOf_cons_of_none hfailure]
      exact ih (h.next hstep) hon hrun
    · obtain ⟨rfl, rfl⟩ := run_of_result hend hrun
      exact Option.some.inj (hr.symm.trans hend)

/-! ## 2. Cancellation -/

def indexRank : IndexLoop → Nat
  | .sending => 3
  | .resting => 2
  | .start => 1
  | .done => 0

def downloadRank : DownloadLoop → Nat
  | .checking => 3
  | .polling => 2
  | .start => 1
  | .done => 0

def uploadRank : Option UploadLoop → Nat
  | some .checking => 3
  | some .resting => 2
  | some .delayed => 2
  | some .start => 1
  | some .done => 0
  | none => 0

/-- A bound of the steps that are left once the run is cancelled. -/
def rank (σ : Lifecycle) : Nat :=
  match σ.result with
  | some _ => 0
  | none => 1 + indexRank σ.index + downloadRank σ.download + uploadRank σ.upload

theorem rank_of_running (h : σ.result = none) :
    σ.rank = 1 + indexRank σ.index + downloadRank σ.download + uploadRank σ.upload := by
  rw [rank, h]

theorem rank_lt_rank (h : σ.result = none) (h' : σ'.result = none)
    (hlt : indexRank σ'.index + downloadRank σ'.download + uploadRank σ'.upload <
      indexRank σ.index + downloadRank σ.download + uploadRank σ.upload) : σ'.rank < σ.rank := by
  rw [rank_of_running h, rank_of_running h']
  omega

theorem uploadRank_le (upload : Option UploadLoop) : uploadRank upload ≤ 3 := by
  rcases upload with _ | loop
  · decide
  · cases loop <;> decide

theorem rank_le (σ : Lifecycle) : σ.rank ≤ 10 := by
  have hindex : indexRank σ.index ≤ 3 := by cases σ.index <;> decide
  have hdownload : downloadRank σ.download ≤ 3 := by cases σ.download <;> decide
  have hupload := uploadRank_le σ.upload
  unfold rank
  split
  · exact Nat.zero_le 10
  · omega

theorem rank_lt_of_step (hc : σ.cancelled = true) (hrunning : σ.result = none)
    (hstep : Step σ a σ') : σ'.cancelled = true ∧ σ'.rank < σ.rank := by
  have hpos : 0 < σ.rank := by
    rw [rank_of_running hrunning]
    omega
  -- no pass begins; a step either ends the run or brings its loop closer to its end
  cases hstep with
  | cancel hc' => simp [hc] at hc'
  | indexError _ hc' => simp [hc] at hc'
  | indexSame _ hc' => simp [hc] at hc'
  | indexSent _ hc' => simp [hc] at hc'
  | indexFull _ hc' => simp [hc] at hc'
  | indexUnheard _ hc' => simp [hc] at hc'
  | download _ hc' => simp [hc] at hc'
  | upload _ hc' => simp [hc] at hc'
  | closedError => exact ⟨hc, hpos⟩
  | downloadError => exact ⟨hc, hpos⟩
  | pollError => exact ⟨hc, hpos⟩
  | uploadError => exact ⟨hc, hpos⟩
  | complete => exact ⟨hc, hpos⟩
  | indexStop h =>
    refine ⟨hc, rank_lt_rank hrunning hrunning ?_⟩
    rcases h with h | h <;> simp [h, indexRank]
  | downloadStop h =>
    refine ⟨hc, rank_lt_rank hrunning hrunning ?_⟩
    rcases h with h | h <;> simp [h, downloadRank]
  | uploadStop h =>
    refine ⟨hc, rank_lt_rank hrunning hrunning ?_⟩
    rcases h with h | h <;> simp [h, uploadRank]
  | _ =>
    refine ⟨hc, rank_lt_rank hrunning hrunning ?_⟩
    simp [*, indexRank, downloadRank, uploadRank]

/-! ## 3. Progress -/

theorem download_moves (hc : σ.cancelled = true) (hrunning : σ.result = none)
    (hdone : σ.download ≠ .done) : ∃ a, (next σ a).isSome := by
  cases h : σ.download with
  | start => exact ⟨.downloadStop, by simp [next, hrunning, h, hc]⟩
  | checking => exact ⟨.downloaded (.ok true), by simp [next, hrunning, h]⟩
  | polling => exact ⟨.downloadStop, by simp [next, hrunning, h, hc]⟩
  | done => exact absurd h hdone

theorem upload_moves (hc : σ.cancelled = true) (hrunning : σ.result = none) {loop : UploadLoop}
    (h : σ.upload = some loop) (hdone : loop ≠ .done) : ∃ a, (next σ a).isSome := by
  cases loop with
  | delayed => exact ⟨.uploadDelayOver, by simp [next, hrunning, h]⟩
  | start => exact ⟨.uploadStop, by simp [next, hrunning, h, hc]⟩
  | checking => exact ⟨.uploaded (.ok true), by simp [next, hrunning, h]⟩
  | resting => exact ⟨.uploadStop, by simp [next, hrunning, h, hc]⟩
  | done => exact absurd rfl hdone

/-- A cancelled run is not stuck.  The index loop may wait for room in the channel, but only while
the receiver has not ended. -/
theorem exists_next (hc : σ.cancelled = true) (hrunning : σ.result = none) :
    ∃ a, (next σ a).isSome := by
  by_cases hdownload : σ.download = .done
  · by_cases hupload : σ.upload = none ∨ σ.upload = some .done
    -- only the index loop is left, and its channel has no receiver
    · have hr : σ.receives = false := by
        unfold receives
        rcases hupload with h | h <;> simp [h, hdownload]
      cases h : σ.index with
      | start => exact ⟨.indexStop, by simp [next, hrunning, h, hc]⟩
      | sending => exact ⟨.sentClosed false, by simp [next, hrunning, h, hr]⟩
      | resting => exact ⟨.indexStop, by simp [next, hrunning, h, hc]⟩
      | done => exact ⟨.complete, by simp [next, hrunning, isOver, h, hdownload, hupload]⟩
    · rw [not_or] at hupload
      obtain ⟨loop, hloop⟩ := Option.ne_none_iff_exists'.mp hupload.1
      exact upload_moves hc hrunning hloop fun h ↦ hupload.2 (h ▸ hloop)
  · exact download_moves hc hrunning hdownload

/-- What the listener has been told of the beginning of passes. -/
def started (σ : Lifecycle) : Nat :=
  σ.notices.countP fun notice ↦
    notice = .status .indexing || notice = .status .downloading || notice = .status .uploading

theorem started_of_step (hc : σ.cancelled = true) (hstep : Step σ a σ') :
    σ'.started = σ.started := by
  cases hstep with
  | _ => simp_all [started, notify, fail]

/-- Once it is cancelled a run starts no pass, ends after at most ten more steps, and returns
without an error unless one of these has failed. -/
theorem cancelled_ends {downloadOnly : Bool}
    (h : (system downloadOnly).Reachable System.anyAction σ) (hc : σ.cancelled = true)
    (hrunning : σ.result = none) {as : List LifecycleAction}
    (hrun : (system downloadOnly).run σ as = some σ') :
    as.length ≤ 10 ∧ σ'.started = σ.started ∧
      ((∀ a, (system downloadOnly).step σ' a = none) → σ'.result = some (resultOf as)) := by
  have hstep : ∀ τ τ', ∀ a ∈ as, τ.cancelled = true ∧ τ.started = σ.started →
      (system downloadOnly).step τ a = some τ' →
        (τ'.cancelled = true ∧ τ'.started = σ.started) ∧ τ'.rank < τ.rank := by
    intro τ τ' a _ hτ hstep
    obtain ⟨hon, hstep⟩ := step_cases hstep
    obtain ⟨hc', hlt⟩ := rank_lt_of_step hτ.1 hon hstep
    exact ⟨⟨hc', (started_of_step hτ.1 hstep).trans hτ.2⟩, hlt⟩
  have hlength := System.length_run_le hstep ⟨hc, rfl⟩ hrun
  have hlast : σ'.cancelled = true ∧ σ'.started = σ.started :=
    System.invariant_run (fun τ τ' a ha hτ hnext ↦ (hstep τ τ' a ha hτ hnext).1) ⟨hc, rfl⟩ hrun
  have hbound := σ.rank_le
  refine ⟨by omega, hlast.2, fun hstuck ↦ ?_⟩
  cases hr : σ'.result with
  | none =>
    obtain ⟨a, ha⟩ := exists_next hlast.1 hr
    rw [show next σ' a = none from hstuck a] at ha
    cases ha
  | some r => exact congrArg some (result_run (inv_of_reachable h) hrunning hrun hr)

/-- The client has found a change and is downloading when it is cancelled. -/
def interrupted : Lifecycle where
  cancelled := true
  index := .resting
  download := .checking
  upload := some .delayed
  queued := 1
  notices := [.status .syncing, .status .indexing, .status .idle, .status .downloading]
  result := none
  changes := 1
  covered := 0

theorem reachable_interrupted : (system false).Reachable System.anyAction interrupted := by
  have hinit : (system false).Reachable System.anyAction (start false) := .init rfl
  have hrun : (system false).run (start false) [.index (.ok true), .download, .cancel] =
      some interrupted := rfl
  exact hinit.run hrun

/-- It ends the download and returns. -/
def lastSteps : List LifecycleAction :=
  [.downloaded (.ok true), .downloadStop, .indexStop, .uploadDelayOver, .uploadStop, .complete]

theorem cancelled_ends_interrupted :
    lastSteps.length ≤ 10 ∧ ∃ σ, (system false).run interrupted lastSteps = some σ ∧
      σ.started = interrupted.started ∧
        ((∀ a, (system false).step σ a = none) → σ.result = some (resultOf lastSteps)) := by
  obtain ⟨σ, hrun⟩ : ∃ σ, (system false).run interrupted lastSteps = some σ := ⟨_, rfl⟩
  obtain ⟨hlength, hstarted, hresult⟩ := cancelled_ends reachable_interrupted rfl rfl hrun
  exact ⟨hlength, σ, hrun, hstarted, hresult⟩

/-! ## 4. Changes on their way to the upload loop -/

def isUpload : LifecycleAction → Bool
  | .uploadDelayOver => true
  | .upload => true
  | .uploaded _ => true
  | .uploadWake => true
  | .uploadNext => true
  | .uploadStop => true
  | _ => false

/-- How many steps of the upload loop it takes at most until a pass covers the first changes. -/
def ahead (count : Nat) (σ : Lifecycle) : Nat :=
  if count ≤ σ.covered then 0 else uploadRank σ.upload

theorem cancelled_of_step (hstep : Step σ a σ') (hc : σ.cancelled = true) : σ'.cancelled = true := by
  cases hstep with
  | _ => simp_all

theorem cancelled_of_run {downloadOnly : Bool} {as : List LifecycleAction}
    (hrun : (system downloadOnly).run σ as = some σ') (hc : σ.cancelled = true) :
    σ'.cancelled = true :=
  System.invariant_run (P := fun τ : Lifecycle ↦ τ.cancelled = true)
    (fun _ _ _ _ hτ hnext ↦ cancelled_of_step (step_cases hnext).2 hτ) hc hrun

theorem changes_le_of_step (hstep : Step σ a σ') : σ.changes ≤ σ'.changes := by
  cases hstep with
  | indexSent => exact Nat.le_succ _
  | indexFull => exact Nat.le_succ _
  | _ => exact Nat.le_refl _

theorem ahead_le_of_step {count : Nat} (hcount : count ≤ σ.changes)
    (hc : σ.cancelled = false) (hrunning : σ'.result = none) (hstep : Step σ a σ') :
    ahead count σ' ≤ ahead count σ - if isUpload a then 1 else 0 := by
  have hsame : ∀ τ : Lifecycle, τ.covered = σ.covered → τ.upload = σ.upload →
      ahead count τ ≤ ahead count σ - 0 := by
    intro τ hcovered hupload
    rw [ahead, ahead, hcovered, hupload]
    exact Nat.le_refl _
  have hless : ∀ τ : Lifecycle, τ.covered = σ.covered → uploadRank τ.upload + 1 ≤ uploadRank σ.upload →
      ahead count τ ≤ ahead count σ - 1 := by
    intro τ hcovered hupload
    rw [ahead, ahead, hcovered]
    split
    · exact Nat.zero_le _
    · omega
  -- a pass covers the changes where it begins; before, every step brings the loop closer to one
  cases hstep with
  | upload hstart =>
    rw [ahead, if_pos hcount]
    exact Nat.zero_le _
  | uploadError => cases hrunning
  | uploadDelayOver hdelayed => exact hless _ rfl (by simp [hdelayed, uploadRank])
  | uploaded hchecking => exact hless _ rfl (by simp [hchecking, uploadRank])
  | uploadAgain hchecking => exact hless _ rfl (by simp [hchecking, uploadRank])
  | uploadWake hresting => exact hless _ rfl (by simp [hresting, uploadRank])
  | uploadNext hresting => exact hless _ rfl (by simp [hresting, uploadRank])
  | uploadStop _ hc' => simp [hc] at hc'
  | _ => exact hsame _ rfl rfl

theorem ahead_le_of_run {downloadOnly : Bool} {count : Nat} (hcount : count ≤ σ.changes)
    {as : List LifecycleAction} (hrun : (system downloadOnly).run σ as = some σ')
    (hc : σ'.cancelled = false) (hrunning : σ'.result = none) :
    ahead count σ' ≤ ahead count σ - as.countP isUpload := by
  induction as generalizing σ with
  | nil =>
    cases hrun
    exact Nat.le_refl _
  | cons a as ih =>
    obtain ⟨σ₁, hstep, hrest⟩ := Option.bind_eq_some_iff.mp hrun
    obtain ⟨-, hcases⟩ := step_cases hstep
    have hc₀ : σ.cancelled = false := by
      by_contra hcancelled
      rw [cancelled_of_run hrun (Bool.not_eq_false _ ▸ hcancelled)] at hc
      cases hc
    have hon : σ₁.result = none := by
      cases hr : σ₁.result with
      | none => rfl
      | some r =>
        obtain ⟨-, rfl⟩ := run_of_result hr hrest
        exact hr.symm.trans hrunning
    have hfirst := ahead_le_of_step hcount hc₀ hon hcases
    have hothers := ih (hcount.trans (changes_le_of_step hcases)) hrest
    rw [List.countP_cons]
    omega

theorem isNone_upload {downloadOnly : Bool}
    (h : (system downloadOnly).Reachable System.anyAction σ) : σ.upload.isNone = downloadOnly := by
  have hinit : ∀ τ, (system downloadOnly).init τ → τ.upload.isNone = downloadOnly := by
    intro τ hτ
    rw [show τ = start downloadOnly from hτ]
    cases downloadOnly <;> rfl
  refine h.invariant hinit ?_
  intro τ a τ' hτ _ hstep
  cases (step_cases hstep).2 with
  | uploadStop hfree => rcases hfree with hfree | hfree <;> simp_all
  | _ => simp_all

/-- No change that the index loop has found is left to a timer: after three steps of the upload loop
a pass has begun that covers it, and where the loop rests there is a message for it. -/
theorem change_covered (h : (system false).Reachable System.anyAction σ) {as : List LifecycleAction}
    (hrun : (system false).run σ as = some σ') (hc : σ'.cancelled = false)
    (hrunning : σ'.result = none) (hsteps : 3 ≤ as.countP isUpload) :
    σ.changes ≤ σ'.covered ∧
      (σ'.upload = some .resting → σ'.covered < σ'.changes → 0 < σ'.queued) := by
  have h' := h.run hrun
  have hinv' := inv_of_reachable h'
  refine ⟨?_, fun hresting hless ↦ ?_⟩
  · have hahead := ahead_le_of_run (Nat.le_refl σ.changes) hrun hc hrunning
    have hbound : ahead σ.changes σ ≤ 3 := by
      rw [ahead]
      split
      · exact Nat.zero_le 3
      · exact uploadRank_le σ.upload
    rw [show ahead σ.changes σ - as.countP isUpload = 0 by omega, ahead] at hahead
    -- nothing is ahead, so the loop would have ended
    by_contra hnot
    rw [if_neg hnot] at hahead
    obtain ⟨loop, hloop⟩ := Option.isSome_iff_exists.mp
      (Option.isNone_eq_false_iff.mp (isNone_upload h'))
    rw [hloop] at hahead
    cases loop with
    | done => simp [hinv'.upload hloop] at hc
    | _ => simp [uploadRank] at hahead
  · have hle := hinv'.covered (.inr hresting)
    omega

/-- The first pass of the upload loop covers the first change. -/
theorem change_covered_first :
    ∃ σ σ', (system false).run (start false) [.index (.ok true)] = some σ ∧
      (system false).run σ [.uploadDelayOver, .upload, .uploaded (.ok true)] = some σ' ∧
        σ.changes ≤ σ'.covered ∧
          (σ'.upload = some .resting → σ'.covered < σ'.changes → 0 < σ'.queued) := by
  have hinit : (system false).Reachable System.anyAction (start false) := .init rfl
  obtain ⟨σ, hσ⟩ : ∃ σ, (system false).run (start false) [.index (.ok true)] = some σ := ⟨_, rfl⟩
  have hnext : ((system false).run (start false) [.index (.ok true)]).bind
      ((system false).run · [.uploadDelayOver, .upload, .uploaded (.ok true)]) = some _ := rfl
  rw [hσ, Option.bind_some] at hnext
  exact ⟨σ, _, hσ, hnext, change_covered (hinit.run hσ) hnext rfl rfl (by decide)⟩

/-! ## 5. A client that only downloads -/

/-- How many index passes the listener has been told of. -/
def indexed (σ : Lifecycle) : Nat := σ.notices.countP (· = .status .indexing)

theorem upload_eq_none (h : (system true).Reachable System.anyAction σ) : σ.upload = none :=
  Option.isNone_iff_eq_none.mp (isNone_upload h)

/-- Nobody reads the channel: the index pass that finds the change number 101 is the last one, even
if the client runs on. -/
theorem index_blocked (h : (system true).Reachable System.anyAction σ) {as : List LifecycleAction}
    (hrun : (system true).run σ as = some σ') :
    σ'.changes ≤ channelSize + 1 ∧
      (σ.changes = channelSize + 1 → σ'.indexed = σ.indexed ∧ σ'.changes = σ.changes) := by
  have h' := h.run hrun
  refine ⟨((inv_of_reachable h').alone (upload_eq_none h')).2, fun hfull ↦ ?_⟩
  have hstep : ∀ τ τ', ∀ a ∈ as, τ.Inv ∧ τ.upload = none ∧ τ.changes = channelSize + 1 ∧
      τ.indexed = σ.indexed → (system true).step τ a = some τ' →
        τ'.Inv ∧ τ'.upload = none ∧ τ'.changes = channelSize + 1 ∧ τ'.indexed = σ.indexed := by
    rintro τ τ' a - ⟨hinv, hnone, hchanges, hindexed⟩ hstep
    have hblocked := hinv.blocked hnone hchanges
    refine ⟨hinv.next hstep, ?_⟩
    -- the index loop waits for its message to be taken, or has been told to end
    have hstuck : τ.index = .start → τ.cancelled = true := by
      intro hstart
      rw [hstart] at hblocked
      simpa using hblocked
    cases (step_cases hstep).2 with
    | indexError hstart hc => simp [hstuck hstart] at hc
    | indexSame hstart hc => simp [hstuck hstart] at hc
    | indexSent hstart hc => simp [hstuck hstart] at hc
    | indexFull hstart hc => simp [hstuck hstart] at hc
    | indexUnheard hstart hc => simp [hstuck hstart] at hc
    | _ => simp_all [indexed, notify, fail]
  obtain ⟨-, -, hchanges, hindexed⟩ :=
    System.invariant_run hstep ⟨inv_of_reachable h, upload_eq_none h, hfull, rfl⟩ hrun
  exact ⟨hindexed, hchanges.trans hfull.symm⟩

/-- As many changes as the channel has room for, and one more. -/
def fillChannel : List LifecycleAction :=
  (List.replicate channelSize [.index (.ok true), .indexWake]).flatten ++ [.index (.ok true)]

theorem index_blocked_full :
    ∃ σ σ', (system true).run (start true) fillChannel = some σ ∧
      (system true).run σ [.download, .downloaded (.ok true)] = some σ' ∧
        σ'.changes ≤ channelSize + 1 ∧ σ'.indexed = σ.indexed ∧ σ'.changes = σ.changes := by
  have hinit : (system true).Reachable System.anyAction (start true) := .init rfl
  have hruns : (((system true).run (start true) fillChannel).bind fun σ ↦
      ((system true).run σ [.download, .downloaded (.ok true)]).map fun _ ↦ σ.changes) =
        some (channelSize + 1) := by decide +kernel
  obtain ⟨σ, hσ, hnext⟩ := Option.bind_eq_some_iff.mp hruns
  obtain ⟨σ', hσ', hfull⟩ := Option.map_eq_some_iff.mp hnext
  obtain ⟨hle, hsame⟩ := index_blocked (hinit.run hσ) hσ'
  exact ⟨σ, σ', hσ, hσ', hle, hsame hfull⟩

/-! ## 6. What the listener is told -/

def ending : Option (Except RunError Unit) → List Notice
  | none => []
  | some (.ok ()) => [.complete true none]
  | some (.error e) => [.complete false (some e)]

/-- What is going on where a status is the last one shown. -/
def Shows (σ : Lifecycle) : SyncStatus → Prop
  | .idle => True
  | .syncing => True
  | .indexing => σ.index = .sending
  | .downloading => σ.download = .checking
  | .uploading => σ.upload = some .checking ∨ σ.upload = some .start ∨ σ.upload = some .done

structure Told (σ : Lifecycle) (statuses : List SyncStatus) : Prop where
  notices : σ.notices = (SyncStatus.syncing :: statuses).map .status ++ ending σ.result
  shown : σ.result = none → σ.Shows (statuses.getLast?.getD .syncing)
  success : σ.result = some (.ok ()) → σ.cancelled = true

section Told

variable {τ : Lifecycle} {statuses : List SyncStatus}

theorem Told.notices_running (h : σ.Told statuses) (hrunning : σ.result = none) :
    σ.notices = (SyncStatus.syncing :: statuses).map .status := by
  rw [h.notices, hrunning, ending, List.append_nil]

/-- A step that tells nothing. -/
theorem Told.quiet (h : σ.Told statuses) (hrunning : σ.result = none)
    (hsame : τ.notices = σ.notices) (hon : τ.result = none)
    (hshows : ∀ status, σ.Shows status → τ.Shows status) : τ.Told statuses where
  notices := by rw [hsame, hon, ending, List.append_nil, h.notices_running hrunning]
  shown _ := hshows _ (h.shown hrunning)
  success hok := by
    rw [hon] at hok
    cases hok

/-- A step that tells statuses, the last of which is then shown. -/
theorem Told.notified (h : σ.Told statuses) (hrunning : σ.result = none)
    (more : List SyncStatus) (last : SyncStatus)
    (hmore : τ.notices = σ.notices ++ (more ++ [last]).map .status) (hon : τ.result = none)
    (hshows : τ.Shows last) : τ.Told (statuses ++ (more ++ [last])) where
  notices := by
    rw [hmore, hon, ending, List.append_nil, h.notices_running hrunning, ← List.map_append,
      List.cons_append]
  shown _ := by
    rw [← List.append_assoc, List.getLast?_concat]
    exact hshows
  success hok := by
    rw [hon] at hok
    cases hok

/-- A step that ends the run. -/
theorem Told.ended (h : σ.Told statuses) (hrunning : σ.result = none) (more : List SyncStatus)
    (r : Except RunError Unit)
    (hmore : τ.notices = σ.notices ++ (more.map .status ++ ending (some r)))
    (hr : τ.result = some r) (hok : r = .ok () → τ.cancelled = true) :
    τ.Told (statuses ++ more) where
  notices := by
    rw [hmore, hr, h.notices_running hrunning, ← List.append_assoc, ← List.map_append,
      List.cons_append]
  shown hon := by
    rw [hr] at hon
    cases hon
  success hsuccess := by
    rw [hr] at hsuccess
    exact hok (Option.some.inj hsuccess)

end Told

theorem told_of_step {statuses : List SyncStatus} (h : σ.Inv) (htold : σ.Told statuses)
    (hrunning : σ.result = none) (hstep : Step σ a σ') : ∃ told, σ'.Told told := by
  have hnotified := fun τ ↦ htold.notified (τ := τ) hrunning
  have hended := fun τ ↦ htold.ended (τ := τ) hrunning
  cases hstep with
  | cancel => exact ⟨_, htold.quiet hrunning rfl hrunning fun status hs ↦ hs⟩
  | indexError =>
    exact ⟨_, hended _ [.indexing] (.error _) (List.append_assoc ..) rfl fun h ↦ by cases h⟩
  | indexSame => exact ⟨_, hnotified _ [.indexing] .idle (List.append_assoc ..) hrunning trivial⟩
  | indexSent => exact ⟨_, hnotified _ [.indexing] .idle (List.append_assoc ..) hrunning trivial⟩
  | indexFull => exact ⟨_, hnotified _ [] .indexing rfl hrunning rfl⟩
  | indexUnheard _ hc hr => simp [h.receives hc] at hr
  | sent => exact ⟨_, hnotified _ [] .idle rfl hrunning trivial⟩
  | closedError => exact ⟨_, hended _ [] (.error _) rfl rfl fun h ↦ by cases h⟩
  | closed => exact ⟨_, hnotified _ [] .idle rfl hrunning trivial⟩
  | download => exact ⟨_, hnotified _ [] .downloading rfl hrunning rfl⟩
  | downloadError => exact ⟨_, hended _ [] (.error _) rfl rfl fun h ↦ by cases h⟩
  | downloaded => exact ⟨_, hnotified _ [] .idle rfl hrunning trivial⟩
  | pollError => exact ⟨_, hended _ [] (.error _) rfl rfl fun h ↦ by cases h⟩
  | upload => exact ⟨_, hnotified _ [] .uploading rfl hrunning (.inl rfl)⟩
  | uploadError => exact ⟨_, hended _ [] (.error _) rfl rfl fun h ↦ by cases h⟩
  | uploaded => exact ⟨_, hnotified _ [] .idle rfl hrunning trivial⟩
  | complete hover =>
    refine ⟨_, hended _ [] (.ok ()) rfl rfl fun _ ↦ h.index ?_⟩
    simp only [isOver, Bool.and_eq_true, decide_eq_true_eq] at hover
    exact hover.1.1
  | _ =>
    -- the others move a loop that no status shows
    refine ⟨_, htold.quiet hrunning rfl hrunning fun status hs ↦ ?_⟩
    clear hnotified hended
    cases status <;> simp_all [Shows]

/-- The listener is told that the run syncs, then statuses, and last, exactly once, what the run
returns.  A pass is shown only while it is under way; the upload status also stays between two
passes.  Success is told only of a cancelled run. -/
theorem listener_told {downloadOnly : Bool}
    (h : (system downloadOnly).Reachable System.anyAction σ) : ∃ statuses, σ.Told statuses := by
  have hinit : ∀ τ, (system downloadOnly).init τ → τ.Inv ∧ ∃ statuses, τ.Told statuses := by
    intro τ hτ
    rw [show τ = start downloadOnly from hτ]
    exact ⟨inv_start downloadOnly, [], rfl, fun _ ↦ trivial, fun hok ↦ by cases hok⟩
  have hall : σ.Inv ∧ ∃ statuses, σ.Told statuses := by
    refine h.invariant hinit ?_
    rintro τ a τ' ⟨hinv, statuses, htold⟩ _ hstep
    obtain ⟨hrunning, hcases⟩ := step_cases hstep
    exact ⟨hinv.next hstep, told_of_step hinv htold hrunning hcases⟩
  exact hall.2

theorem listener_told_interrupted : ∃ statuses, interrupted.Told statuses :=
  listener_told reachable_interrupted

end Lifecycle

end CooklangSync.Client
