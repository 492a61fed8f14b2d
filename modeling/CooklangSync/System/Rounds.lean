import CooklangSync.System.UploadSteps

/-!
# Rounds — the one-off runs of the devices, one after the other

`run_download_once` and `run_upload_once`, when the server answers all their requests, are runs of
the fleet.  When every device has made both in turn, and then downloads once more, all of them hold
what the server shares.
-/

namespace CooklangSync.System

open Theory
open Watched (newest)

namespace Fleet

section Rounds

variable {ι : Type} [DecidableEq ι] {sha256 : Bytes → Text} {userId : Int} {namespaceId : ι → Int}
  {bytesOf : Text → Bytes} {base : ι → Place Name} {σ σ' : Fleet ι}

/-! ## 1. A device starts and indexes -/

/-- The devices, the journal and the stored chunks are the same; what is kept to speak of runs may
differ. -/
structure Alike (σ σ' : Fleet ι) : Prop where
  state : ∀ c, σ'.state c = σ.state c
  journal : σ'.journal = σ.journal
  store : σ'.store = σ.store

omit [DecidableEq ι] in
theorem Alike.inv (hsame : Alike σ σ') (h : Inv sha256 userId namespaceId bytesOf base σ) :
    Inv sha256 userId namespaceId bytesOf base σ' := by
  refine ⟨fun r hr ↦ ?_, fun r hr huser ↦ ?_, fun id data hid ↦ ?_, fun c ↦ ?_⟩
  · exact h.positive r (hsame.journal ▸ hr)
  · rw [hsame.store]
    exact h.records r (hsame.journal ▸ hr) huser
  · exact h.chunks id data (hsame.store ▸ hid)
  · rw [hsame.state, hsame.journal]
    exact h.device c

omit [DecidableEq ι] in
theorem Alike.abs_eq (hsame : Alike σ σ') :
    σ'.abs userId namespaceId base = σ.abs userId namespaceId base := by
  have hdisk : ∀ c, σ'.disk c = σ.disk c := fun c ↦ congrArg _ (hsame.state c)
  have hseen : ∀ c, σ'.seenBy namespaceId c = σ.seenBy namespaceId c := by
    intro c
    rw [seenBy, seenBy, registry, registry, hsame.state, hsame.journal]
  rw [abs, abs, hsame.store, hsame.journal]
  simp only [hdisk, hseen]

omit [DecidableEq ι] in
theorem Alike.current (hsame : Alike σ σ') {c : ι} (h : IsCurrent userId namespaceId σ c) :
    IsCurrent userId namespaceId σ' c := by
  rw [IsCurrent, registry, hsame.state, hsame.journal]
  exact h

variable (sha256 userId namespaceId bytesOf base) in
/-- A step that only the device itself can see. -/
structure Prepares (c : ι) (σ σ' : Fleet ι) : Prop where
  inv : Inv sha256 userId namespaceId bytesOf base σ'
  others : ∀ e, e ≠ c → σ'.state e = σ.state e
  disk : σ'.disk c = σ.disk c
  journal : σ'.journal = σ.journal
  store : σ'.store = σ.store
  current : IsCurrent userId namespaceId σ c → IsCurrent userId namespaceId σ' c
  abs_eq : σ'.abs userId namespaceId base = σ.abs userId namespaceId base

omit [DecidableEq ι] in
theorem Prepares.trans {c : ι} {σ₁ σ₂ σ₃ : Fleet ι}
    (h : Prepares sha256 userId namespaceId bytesOf base c σ₁ σ₂)
    (h' : Prepares sha256 userId namespaceId bytesOf base c σ₂ σ₃) :
    Prepares sha256 userId namespaceId bytesOf base c σ₁ σ₃ where
  inv := h'.inv
  others e he := (h'.others e he).trans (h.others e he)
  disk := h'.disk.trans h.disk
  journal := h'.journal.trans h.journal
  store := h'.store.trans h.store
  current hcurrent := h'.current (h.current hcurrent)
  abs_eq := h'.abs_eq.trans h.abs_eq

theorem prepares_started (hdigest : Client.IsHexDigest sha256)
    (h : Inv sha256 userId namespaceId bytesOf base σ) (c : ι) (evicts : Nat → Text → Bool) :
    ∃ σ', Prepares sha256 userId namespaceId bytesOf base c σ σ' ∧
      σ'.state c = (σ.state c).started evicts := by
  let σ' := σ.setChunker c (.new (σ.state c).chunker.basePath evicts)
  have hstep : next sha256 userId namespaceId σ (.restart c evicts) = some σ' := rfl
  have hok : IsCareful sha256 userId namespaceId bytesOf base σ (.restart c evicts) := trivial
  have hself : σ'.state c = (σ.state c).started evicts := (state_set _ _ _ _ _).trans (if_pos rfl)
  refine ⟨σ', ⟨h.restart hstep, fun e he ↦ (state_set _ _ _ _ _).trans (if_neg he), ?_, rfl, rfl,
    fun hcurrent ↦ ?_, abs_quiet hdigest h hok hstep rfl⟩, hself⟩
  · rw [disk, hself]
    rfl
  · rw [IsCurrent, registry, hself]
    exact hcurrent

theorem prepares_indexed (hdigest : Client.IsHexDigest sha256)
    (h : Inv sha256 userId namespaceId bytesOf base σ) {c : ι} {index : Client.IndexEnv}
    (hwalkable : ∀ rel, index.scan.unwalkable (rel ++ base c) = false) {s : Client.ClientState}
    {changed : Bool}
    (hindex : Client.indexOnce (namespaceId c) (σ.state c) index = (s, .ok changed)) :
    ∃ σ', Prepares sha256 userId namespaceId bytesOf base c σ σ' ∧ σ'.state c = s ∧
      IsIndexed namespaceId base σ' c := by
  let p := σ.peers.peer c
  obtain ⟨hs, hchanged⟩ := Prod.mk.inj hindex
  let σ' : Fleet ι := { σ with peers := σ.peers.set c { p with state := s } }
  have hstep : next sha256 userId namespaceId σ
      (.index c index.scan index.order index.faults) = some σ' := by
    rw [next, afterPeers, Peers.next, Option.map_some]
    simp only [σ', ← hs]
    rfl
  have hok : IsCareful sha256 userId namespaceId bytesOf base σ
      (.index c index.scan index.order index.faults) := hwalkable
  have hself : σ'.state c = s := (state_set _ _ _ _ _).trans (if_pos rfl)
  obtain ⟨hjournal, hquiet⟩ := index_quiet hstep
  refine ⟨σ', ⟨h.index hok hstep, fun e he ↦ (state_set _ _ _ _ _).trans (if_neg he),
    (hquiet c).1, rfl, rfl, fun hcurrent ↦ ?_, abs_quiet hdigest h hok hstep rfl⟩, hself,
    fun q hq ↦ ?_⟩
  · rw [IsCurrent, (hquiet c).2, hjournal]
    exact hcurrent
  · have hpass : Client.checkIndexOnce (σ.registry c) (σ.disk c) index.scan index.order index.faults
        (σ.state c).chunker.basePath (namespaceId c) = (s.registry, .ok changed) :=
      Prod.ext (congrArg Client.ClientState.registry hs) hchanged
    rw [(hquiet c).1, registry, hself]
    exact h.liveView_of_index hwalkable hpass q hq

/-! ## 2. Turns -/

variable (sha256 userId namespaceId) in
/-- `run_download_once` succeeds, and the server has answered it. -/
structure DownloadTurn (c : ι) (start : Client.StartEnv) (env : Client.Syncer.DownloadEnv)
    (response : List Client.ResponseFileRecord) (σ σ' : Fleet ι) : Prop where
  listed : response.Perm ((Server.list σ.journal userId
    (Client.Syncer.latestLocal env (σ.state c) (namespaceId c))).map respond)
  delivers : Client.Syncer.DeliversStored σ.store env
  runs : Client.runDownloadOnce sha256 start (namespaceId c) (σ.state c) env (fun _ ↦ .ok response) =
    (σ'.state c, .ok ())
  others : ∀ e, e ≠ c → σ'.state e = σ.state e
  journal : σ'.journal = σ.journal
  store : σ'.store = σ.store

omit [DecidableEq ι] in
theorem runDownloadOnce_ok {start : Client.StartEnv} {env : Client.Syncer.DownloadEnv}
    {list : Int → Outcome Client.SyncError (List Client.ResponseFileRecord)} {namespaceId : Int}
    {s s' : Client.ClientState}
    (h : Client.runDownloadOnce sha256 start namespaceId s env list = (s', .ok ())) :
    ∃ changed, Client.Syncer.checkDownloadOnce sha256 env list namespaceId
      (s.started start.evicts) = (s', .ok changed) := by
  rw [Client.runDownloadOnce] at h
  split at h
  · cases h
  · obtain ⟨hs, hok⟩ := Prod.mk.inj h
    obtain ⟨changed, hchanged, -⟩ := Outcome.bind_eq_ok hok
    exact ⟨changed, Prod.ext hs hchanged⟩

theorem current_of_download {c : ι} {env : Client.Syncer.DownloadEnv}
    {response : List Client.ResponseFileRecord}
    (h : Inv sha256 userId namespaceId bytesOf base σ)
    (hok : IsCareful sha256 userId namespaceId bytesOf base σ (.download c env response))
    (hstep : next sha256 userId namespaceId σ (.download c env response) = some σ') {e : ι}
    (he : e = c ∨ IsCurrent userId namespaceId σ e) : IsCurrent userId namespaceId σ' e := by
  obtain ⟨p, rfl, hdown⟩ := h.isDownloaded hok hstep
  rw [IsCurrent, registry, state_set]
  by_cases hne : e = c
  · rw [if_pos hne, hne]
    exact (h.inStep_download hdown).cursor
  · rw [if_neg hne]
    exact he.resolve_left hne

/-- A device that downloads has then seen all records; whoever was clean still is. -/
theorem DownloadTurn.spec (hdigest : Client.IsHexDigest sha256) {c : ι} {start : Client.StartEnv}
    {env : Client.Syncer.DownloadEnv} {response : List Client.ResponseFileRecord}
    (hturn : DownloadTurn sha256 userId namespaceId c start env response σ σ')
    (h : Inv sha256 userId namespaceId bytesOf base σ) :
    Inv sha256 userId namespaceId bytesOf base σ' ∧
      (∀ e, e = c ∨ IsCurrent userId namespaceId σ e → IsCurrent userId namespaceId σ' e) ∧
      ∀ e, (σ.abs userId namespaceId base).IsClean e →
        (σ'.abs userId namespaceId base).IsClean e := by
  obtain ⟨σ₁, hstart, hself₁⟩ := prepares_started hdigest h c start.evicts
  obtain ⟨changed, hpass⟩ := runDownloadOnce_ok hturn.runs
  let p := σ₁.peers.peer c
  let σ₂ : Fleet ι :=
    { σ₁ with
        peers := σ₁.peers.set c
          { p with
              state := σ'.state c
              applied := p.applied ++ response.map Client.ResponseFileRecord.id } }
  have hresponse : σ₁.peers.isResponse userId namespaceId c env response = true := by
    have hstate : (σ₁.peers.peer c).state = (σ.state c).started start.evicts := hself₁
    have hjournal : σ₁.peers.journal = σ.journal := hstart.journal
    rw [Peers.isResponse, List.isPerm_iff, hstate, hjournal]
    exact hturn.listed
  have hstep : next sha256 userId namespaceId σ₁ (.download c env response) = some σ₂ := by
    have hpass' : Client.Syncer.checkDownloadOnce sha256 env (fun _ ↦ .ok response) (namespaceId c)
        (σ₁.peers.peer c).state = (σ'.state c, .ok changed) := by
      rw [← hpass, ← hself₁]
      rfl
    rw [next, afterPeers, Peers.next, if_pos hresponse]
    simp only [hpass']
    rfl
  have hok : IsCareful sha256 userId namespaceId bytesOf base σ₁ (.download c env response) := by
    rw [IsCareful, hstart.store]
    exact hturn.delivers
  have hinv₂ := hstart.inv.download hdigest hok hstep
  have halike : Alike σ₂ σ' := by
    refine ⟨fun e ↦ ?_, hturn.journal.trans hstart.journal.symm, hturn.store.trans hstart.store.symm⟩
    rw [show σ₂.state e = _ from state_set _ _ _ _ _]
    split
    · rename_i he
      rw [he]
    · rename_i he
      exact (hturn.others e he).trans (hstart.others e he).symm
  refine ⟨halike.inv hinv₂, fun e he ↦ halike.current ?_, fun e hclean ↦ ?_⟩
  · refine current_of_download hstart.inv hok hstep (he.imp_right fun hcurrent ↦ ?_)
    by_cases hne : e = c
    · rw [hne] at hcurrent ⊢
      exact hstart.current hcurrent
    · rw [IsCurrent, registry, hstart.others e hne, hstart.journal]
      exact hcurrent
  · rw [halike.abs_eq]
    rw [← hstart.abs_eq] at hclean
    exact hclean.next (fun files heq ↦ by cases heq) (fun k heq ↦ by cases heq)
      (abs_download hstart.inv hinv₂ hok hstep)

omit [DecidableEq ι] in
/-- The files of pending rows can be read after an index pass. -/
theorem Inv.isReadable (h : Inv sha256 userId namespaceId bytesOf base σ) {c : ι}
    (hindexed : IsIndexed namespaceId base σ c) {f : Client.FileRecord}
    (hf : IsUploadable (σ.registry c) (namespaceId c) f) :
    Client.Syncer.IsReadable (σ.state c) f := by
  intro hlive
  obtain ⟨hsound, -, hrows, -⟩ := h.device c
  have hp := hrows f hf.mem.1 hf.mem.2
  have hview := hindexed f.path hp
  rw [liveView_newest, hf.newest, Option.bind_some, hlive] at hview
  have hread := hsound.dir.readFile_eq (σ.state c).chunker rfl hp
  refine ⟨Client.isHashable_of_syncable hp, ?_⟩
  rw [hread]
  cases hfile : Client.fileOf (σ.state c).disk (base c) f.path with
  | some data => rfl
  | none =>
    rw [show Client.fileOf (σ.disk c) (base c) f.path = none from hfile] at hview
    cases hview

variable (sha256 userId namespaceId bytesOf base) in
/-- What a pass that is served comes to for the device and for the server. -/
structure IsPass (c : ι) (env : Client.Syncer.UploadEnv) (b : Bool) (σ σ' : Fleet ι) : Prop where
  runs : Client.Syncer.checkUploadOnce sha256 env (namespaceId c) (σ.state c) =
    (σ'.state c, .ok b)
  uploads : Uploads sha256 userId namespaceId bytesOf base c σ σ'
  store : σ'.store = storeChunks σ.store
    (Client.Syncer.sentBatches sha256 env (namespaceId c) (σ.state c)).flatten
  ends : PassEnds sha256 userId σ.stored (namespaceId c) env (σ.state c) (σ'.state c) (.ok b)
    σ.journal σ'.journal

theorem exists_isPass (hdigest : Client.IsHexDigest sha256)
    (h : Inv sha256 userId namespaceId bytesOf base σ) {c : ι}
    (hcurrent : IsCurrent userId namespaceId σ c) (hevicts : (σ.state c).chunker.EvictsNothing)
    (hindexed : IsIndexed namespaceId base σ c) {env : Client.Syncer.UploadEnv}
    {journal' : Server.Journal} (hserved : IsServed sha256 userId σ.stored (namespaceId c) env
      (σ.state c) σ.journal journal') :
    ∃ b σ', IsPass sha256 userId namespaceId bytesOf base c env b σ σ' ∧ σ'.journal = journal' := by
  have hends := checkUploadOnce_served hdigest hserved hevicts fun f hf ↦
    h.isReadable hindexed (isUploadable_of_pending hf)
  have hpass : Client.Syncer.checkUploadOnce sha256 env (namespaceId c) (σ.state c) =
      ((Client.Syncer.checkUploadOnce sha256 env (namespaceId c) (σ.state c)).1, .ok _) :=
    Prod.ext rfl hends.outcome
  rw [hends.outcome] at hends
  obtain ⟨σ', huploads, hstate, hjournal, hstore⟩ :=
    checkUploadOnce_leads hdigest h hcurrent hevicts hserved hpass
  refine ⟨_, σ', ⟨hstate ▸ hpass, huploads, hstore, ?_⟩, hjournal⟩
  rw [hjournal, hstate]
  exact hends

omit [DecidableEq ι] in
theorem IsIndexed.keeps {c : ι} (h : IsIndexed namespaceId base σ c)
    (hkeeps : UploadKeeps userId namespaceId c σ σ') : IsIndexed namespaceId base σ' c := by
  intro p hp
  rw [hkeeps.liveView, hkeeps.disk]
  exact h p hp

/-- A pass that accepts every row leaves none pending. -/
theorem IsPass.nothingPending {c : ι} {env : Client.Syncer.UploadEnv}
    (h : IsPass sha256 userId namespaceId bytesOf base c env true σ σ') :
    (σ'.registry c).updatedLocally (namespaceId c) = [] :=
  (h.ends.isSettled rfl).nothingPending

theorem IsPass.stored_eq {c : ι} {env : Client.Syncer.UploadEnv} {b : Bool}
    (h : IsPass sha256 userId namespaceId bytesOf base c env b σ σ') :
    σ'.stored = storedAfter sha256 σ.stored (namespaceId c) env (σ.state c) := by
  funext id
  rw [stored, h.store, isSome_storeChunks_iff]
  rfl

/-- The second pass accepts the rows that the first one has left, when it reads no new pieces. -/
theorem IsPass.accepts {c : ι} {first second : Client.Syncer.UploadEnv} {b b' : Bool}
    {σ₁ σ₂ σ₃ : Fleet ι} (h : IsPass sha256 userId namespaceId bytesOf base c first b σ₁ σ₂)
    (h' : IsPass sha256 userId namespaceId bytesOf base c second b' σ₂ σ₃)
    (hrereads : RereadsKnown sha256 σ₁.stored (namespaceId c) first second (σ₁.state c)) :
    b' = true := by
  rw [Outcome.ok.inj h'.ends.outcome, all_isAccepted_iff, h.ends.pending]
  intro row hrow id hid
  rw [Client.Syncer.fileIds_congr sha256 _ h.ends.carries.disk h.ends.carries.basePath] at hid
  rw [h.stored_eq, h.ends.uploaded, mem_lacking_or_stored]
  exact hrereads row hrow id hid

/-- The device after the index pass of `run_upload_once`. -/
def indexedState (start : Client.StartEnv) (index : Client.IndexEnv) (namespaceId : Int)
    (s : Client.ClientState) : Client.ClientState :=
  (Client.indexOnce namespaceId (s.started start.evicts) index).1

variable (sha256 userId) in
/-- The server answers the requests of `run_upload_once`: those of the first pass, and those of the
second one if there is one.  The chunks that it is sent are stored. -/
def IsServedOnce (first second : Client.Syncer.UploadEnv) (namespaceId : Int)
    (s : Client.ClientState) (σ σ' : Fleet ι) : Prop :=
  let r := Client.Syncer.checkUploadOnce sha256 first namespaceId s
  let sent := (Client.Syncer.sentBatches sha256 first namespaceId s).flatten
  ∃ journal, IsServed sha256 userId σ.stored namespaceId first s σ.journal journal ∧
    if r.2 = .ok true then σ'.journal = journal ∧ σ'.store = storeChunks σ.store sent
    else
      IsServed sha256 userId (storedAfter sha256 σ.stored namespaceId first s) namespaceId second r.1
        journal σ'.journal ∧
      σ'.store = storeChunks (storeChunks σ.store sent)
        (Client.Syncer.sentBatches sha256 second namespaceId r.1).flatten

variable (sha256 userId namespaceId base) in
/-- `run_upload_once` on a disk that can be read, answered by the server.  The second pass reads no
piece that is new. -/
structure UploadTurn (c : ι) (start : Client.StartEnv) (index : Client.IndexEnv)
    (first second : Client.Syncer.UploadEnv) (σ σ' : Fleet ι) : Prop where
  opens : start.connectionFails = false
  evictsNothing : ∀ i id, start.evicts i id = false
  walkable : ∀ rel, index.scan.unwalkable (rel ++ base c) = false
  indexes : ∃ changed, (Client.indexOnce (namespaceId c) ((σ.state c).started start.evicts) index).2 =
    .ok changed
  served : IsServedOnce sha256 userId first second (namespaceId c)
    (indexedState start index (namespaceId c) (σ.state c)) σ σ'
  rereads : RereadsKnown sha256 σ.stored (namespaceId c) first second
    (indexedState start index (namespaceId c) (σ.state c))
  runs : (Client.runUploadOnce sha256 start (namespaceId c) (σ.state c) index first second).1 =
    σ'.state c
  others : ∀ e, e ≠ c → σ'.state e = σ.state e

/-- The passes of the run, on the fleet: it succeeds, and ends with nothing to upload. -/
theorem UploadTurn.passes (hdigest : Client.IsHexDigest sha256) {c : ι} {start : Client.StartEnv}
    {index : Client.IndexEnv} {first second : Client.Syncer.UploadEnv}
    (hturn : UploadTurn sha256 userId namespaceId base c start index first second σ σ')
    (h : Inv sha256 userId namespaceId bytesOf base σ) (hcurrent : IsCurrent userId namespaceId σ c) :
    (Client.runUploadOnce sha256 start (namespaceId c) (σ.state c) index first second).2 = .ok () ∧
      ∃ σ₁ σ₂, Prepares sha256 userId namespaceId bytesOf base c σ σ₁ ∧
        IsIndexed namespaceId base σ₁ c ∧ Uploads sha256 userId namespaceId bytesOf base c σ₁ σ₂ ∧
        (σ₂.registry c).updatedLocally (namespaceId c) = [] ∧ Alike σ₂ σ' := by
  obtain ⟨changed, hchanged⟩ := hturn.indexes
  obtain ⟨σ₀, hstart, hself₀⟩ := prepares_started hdigest h c start.evicts
  have hindex : Client.indexOnce (namespaceId c) (σ₀.state c) index =
      (indexedState start index (namespaceId c) (σ.state c), .ok changed) := by
    rw [hself₀]
    exact Prod.ext rfl hchanged
  obtain ⟨σ₁, hprepare, hself₁, hindexed⟩ := prepares_indexed hdigest hstart.inv hturn.walkable hindex
  have hprepares := hstart.trans hprepare
  have hevicts : (σ₁.state c).chunker.EvictsNothing := by
    rw [hself₁]
    exact hturn.evictsNothing
  have hcurrent₁ := hprepares.current hcurrent
  have hstored₁ : σ₁.stored = σ.stored := by
    funext id
    rw [stored, stored, hprepares.store]
  obtain ⟨journal, hfirst, hrest⟩ := hturn.served
  have hrereads := hturn.rereads
  have hrun := hturn.runs
  rw [Client.runUploadOnce, hturn.opens, if_neg Bool.false_ne_true] at hrun ⊢
  dsimp only at hrun ⊢
  rw [← hself₀, hindex] at hrun ⊢
  dsimp only at hrun ⊢
  rw [← hself₁] at hfirst hrest hrereads hrun ⊢
  rw [← hstored₁, ← hprepares.journal] at hfirst
  obtain ⟨b, σ₂, hpass, hjournal₂⟩ := exists_isPass hdigest hprepares.inv hcurrent₁ hevicts hindexed
    hfirst
  rw [hpass.runs] at hrest hrun ⊢
  have hkeeps := hpass.uploads.keeps
  have hothers : ∀ e, e ≠ c → σ₂.state e = σ.state e := fun e he ↦
    (hkeeps.others e he).trans (hprepares.others e he)
  cases b with
  | true =>
    obtain ⟨hjournal, hstore⟩ := (if_pos rfl).mp hrest
    refine ⟨rfl, σ₁, σ₂, hprepares, hindexed, hpass.uploads, hpass.nothingPending, fun e ↦ ?_,
      hjournal.trans hjournal₂.symm, ?_⟩
    · by_cases he : e = c
      · rw [he]
        exact hrun.symm
      · rw [hturn.others e he, hothers e he]
    · rw [hpass.store, hprepares.store]
      exact hstore
  | false =>
    obtain ⟨hsecond, hstore⟩ := (if_neg (by simp)).mp hrest
    have hinv₂ := hpass.uploads.inv hdigest hprepares.inv
    have hevicts₂ := (hkeeps.grows hevicts).evictsNothing
    rw [← hstored₁, ← hpass.stored_eq, ← hjournal₂] at hsecond
    obtain ⟨b, σ₃, hpass₃, hjournal₃⟩ := exists_isPass hdigest hinv₂ (hkeeps.current hcurrent₁)
      hevicts₂ (hindexed.keeps hkeeps) hsecond
    rw [← hstored₁] at hrereads
    obtain rfl := hpass.accepts hpass₃ hrereads
    dsimp only at hrun ⊢
    rw [hpass₃.runs] at hrun ⊢
    refine ⟨rfl, σ₁, σ₃, hprepares, hindexed, hpass.uploads.trans hpass₃.uploads,
      hpass₃.nothingPending, fun e ↦ ?_, hjournal₃.symm, ?_⟩
    · by_cases he : e = c
      · rw [he]
        exact hrun.symm
      · rw [hturn.others e he, hpass₃.uploads.keeps.others e he, hothers e he]
    · rw [hpass₃.store, hpass.store, hprepares.store]
      exact hstore

/-- A device that has seen all records and uploads what it has is then clean; whoever was clean still
is. -/
theorem UploadTurn.spec (hdigest : Client.IsHexDigest sha256) {c : ι} {start : Client.StartEnv}
    {index : Client.IndexEnv} {first second : Client.Syncer.UploadEnv}
    (hturn : UploadTurn sha256 userId namespaceId base c start index first second σ σ')
    (h : Inv sha256 userId namespaceId bytesOf base σ) (hcurrent : IsCurrent userId namespaceId σ c) :
    Inv sha256 userId namespaceId bytesOf base σ' ∧ IsCurrent userId namespaceId σ' c ∧
      σ'.disk c = σ.disk c ∧ ∀ e, e = c ∨ (σ.abs userId namespaceId base).IsClean e →
        (σ'.abs userId namespaceId base).IsClean e := by
  obtain ⟨-, σ₁, σ₂, hprepares, hindexed, huploads, hnone, halike⟩ := hturn.passes hdigest h hcurrent
  have hinv₂ := huploads.inv hdigest hprepares.inv
  have hkeeps := huploads.keeps
  refine ⟨halike.inv hinv₂, halike.current (hkeeps.current (hprepares.current hcurrent)), ?_,
    fun e he ↦ ?_⟩
  · rw [disk, halike.state]
    exact hkeeps.disk.trans hprepares.disk
  rw [halike.abs_eq]
  by_cases hne : e = c
  · rw [hne]
    exact hinv₂.isClean (hindexed.keeps hkeeps) hnone
  · refine huploads.isClean hdigest hne hprepares.inv ?_
    rw [hprepares.abs_eq]
    exact he.resolve_left hne

/-! ## 3. Rounds -/

variable (sha256 userId namespaceId base) in
/-- The devices of the list, in turn, download and then upload. -/
inductive Syncs : Fleet ι → List ι → Fleet ι → Prop where
  | nil (σ : Fleet ι) : Syncs σ [] σ
  | cons {σ₁ σ₂ σ₃ σ₄ : Fleet ι} {c : ι} {cs : List ι} {start start' : Client.StartEnv}
      {env : Client.Syncer.DownloadEnv} {response : List Client.ResponseFileRecord}
      {index : Client.IndexEnv} {first second : Client.Syncer.UploadEnv}
      (hdown : DownloadTurn sha256 userId namespaceId c start env response σ₁ σ₂)
      (hup : UploadTurn sha256 userId namespaceId base c start' index first second σ₂ σ₃)
      (hrest : Syncs σ₃ cs σ₄) : Syncs σ₁ (c :: cs) σ₄

variable (sha256 userId namespaceId) in
/-- The devices of the list, in turn, download. -/
inductive Downloads : Fleet ι → List ι → Fleet ι → Prop where
  | nil (σ : Fleet ι) : Downloads σ [] σ
  | cons {σ₁ σ₂ σ₃ : Fleet ι} {c : ι} {cs : List ι} {start : Client.StartEnv}
      {env : Client.Syncer.DownloadEnv} {response : List Client.ResponseFileRecord}
      (hdown : DownloadTurn sha256 userId namespaceId c start env response σ₁ σ₂)
      (hrest : Downloads σ₂ cs σ₃) : Downloads σ₁ (c :: cs) σ₃

theorem Syncs.spec (hdigest : Client.IsHexDigest sha256) {cs : List ι}
    (hsyncs : Syncs sha256 userId namespaceId base σ cs σ')
    (h : Inv sha256 userId namespaceId bytesOf base σ) :
    Inv sha256 userId namespaceId bytesOf base σ' ∧
      ∀ e, e ∈ cs ∨ (σ.abs userId namespaceId base).IsClean e →
        (σ'.abs userId namespaceId base).IsClean e := by
  induction hsyncs with
  | nil σ => exact ⟨h, fun e he ↦ he.resolve_left List.not_mem_nil⟩
  | cons hdown hup hrest ih =>
    obtain ⟨hinv, hcurrent, hclean⟩ := hdown.spec hdigest h
    obtain ⟨hinv', -, -, hclean'⟩ := hup.spec hdigest hinv (hcurrent _ (.inl rfl))
    obtain ⟨hinv'', hclean''⟩ := ih hinv'
    refine ⟨hinv'', fun e he ↦ hclean'' e ?_⟩
    rcases he with hmem | hold
    · rcases List.mem_cons.mp hmem with rfl | hmem
      · exact .inr (hclean' _ (.inl rfl))
      · exact .inl hmem
    · exact .inr (hclean' e (.inr (hclean e hold)))

theorem Downloads.spec (hdigest : Client.IsHexDigest sha256) {cs : List ι}
    (hdowns : Downloads sha256 userId namespaceId σ cs σ')
    (h : Inv sha256 userId namespaceId bytesOf base σ) :
    Inv sha256 userId namespaceId bytesOf base σ' ∧
      (∀ e, e ∈ cs ∨ IsCurrent userId namespaceId σ e → IsCurrent userId namespaceId σ' e) ∧
      ∀ e, (σ.abs userId namespaceId base).IsClean e →
        (σ'.abs userId namespaceId base).IsClean e := by
  induction hdowns with
  | nil σ => exact ⟨h, fun e he ↦ he.resolve_left List.not_mem_nil, fun e he ↦ he⟩
  | cons hdown hrest ih =>
    obtain ⟨hinv, hcurrent, hclean⟩ := hdown.spec hdigest h
    obtain ⟨hinv', hcurrent', hclean'⟩ := ih hinv
    refine ⟨hinv', fun e he ↦ hcurrent' e ?_, fun e he ↦ hclean' e (hclean e he)⟩
    rcases he with hmem | hold
    · rcases List.mem_cons.mp hmem with rfl | hmem
      · exact .inr (hcurrent _ (.inl rfl))
      · exact .inl hmem
    · exact .inr (hcurrent e (.inr hold))

/-- Once every device has downloaded and uploaded in turn, and then downloads once more, all of them
hold the same files: those that the server shares. -/
theorem contents_synced (hdigest : Client.IsHexDigest sha256) {σ₁ σ₂ : Fleet ι}
    (h : (system sha256 userId namespaceId bytesOf base).Reachable
      (IsCareful sha256 userId namespaceId bytesOf base) σ) {cs ds : List ι}
    (hsyncs : Syncs sha256 userId namespaceId base σ cs σ₁) (hcs : ∀ c, c ∈ cs)
    (hdowns : Downloads sha256 userId namespaceId σ₁ ds σ₂) (hds : ∀ c, c ∈ ds) (c : ι) :
    contentsOf (σ₂.disk c) (base c) = snapshot σ₂.store σ₂.journal userId := by
  obtain ⟨hinv, hclean⟩ := hsyncs.spec hdigest (Inv.reachable hdigest h)
  obtain ⟨hinv', hcurrent, hclean'⟩ := hdowns.spec hdigest hinv
  exact Replicas.files_eq_head (hclean' c (hclean c (.inl (hcs c))))
    (hinv'.isCurrent (hcurrent c (.inl (hds c))))

/-- All devices are clean, and the server shares the files. -/
structure IsSettledOn (files : Text → Option Bytes) (s : Replicas ι Text Bytes) : Prop where
  head : s.head = files
  clean : ∀ c, s.IsClean c

theorem DownloadTurn.isSettledOn (hdigest : Client.IsHexDigest sha256)
    {files : Text → Option Bytes} {c : ι} {start : Client.StartEnv} {env : Client.Syncer.DownloadEnv}
    {response : List Client.ResponseFileRecord}
    (hturn : DownloadTurn sha256 userId namespaceId c start env response σ σ')
    (h : Inv sha256 userId namespaceId bytesOf base σ)
    (hsettled : IsSettledOn files (σ.abs userId namespaceId base)) :
    IsSettledOn files (σ'.abs userId namespaceId base) := by
  obtain ⟨-, -, hclean⟩ := hturn.spec hdigest h
  refine ⟨?_, fun e ↦ hclean e (hsettled.clean e)⟩
  rw [← hsettled.head]
  change snapshot σ'.store σ'.journal userId = snapshot σ.store σ.journal userId
  rw [hturn.store, hturn.journal]

/-- A device that uploads what everyone has already changes nothing. -/
theorem UploadTurn.isSettledOn (hdigest : Client.IsHexDigest sha256)
    {files : Text → Option Bytes} {c : ι} {start : Client.StartEnv} {index : Client.IndexEnv}
    {first second : Client.Syncer.UploadEnv}
    (hturn : UploadTurn sha256 userId namespaceId base c start index first second σ σ')
    (h : Inv sha256 userId namespaceId bytesOf base σ) (hcurrent : IsCurrent userId namespaceId σ c)
    (hfiles : contentsOf (σ.disk c) (base c) = files)
    (hclean : ∀ e, e ≠ c → (σ.abs userId namespaceId base).IsClean e) :
    IsSettledOn files (σ'.abs userId namespaceId base) := by
  obtain ⟨hinv', hcurrent', hdisk, hclean'⟩ := hturn.spec hdigest h hcurrent
  have hhead := Replicas.files_eq_head (hclean' c (.inl rfl)) (hinv'.isCurrent hcurrent')
  refine ⟨?_, fun e ↦ hclean' e ?_⟩
  · rw [← hhead, ← hfiles, ← hdisk]
    rfl
  · by_cases he : e = c
    · exact .inl he
    · exact .inr (hclean e he)

theorem Syncs.isSettledOn (hdigest : Client.IsHexDigest sha256) {files : Text → Option Bytes}
    {cs : List ι} (hsyncs : Syncs sha256 userId namespaceId base σ cs σ')
    (h : Inv sha256 userId namespaceId bytesOf base σ)
    (hsettled : IsSettledOn files (σ.abs userId namespaceId base)) :
    IsSettledOn files (σ'.abs userId namespaceId base) := by
  induction hsyncs with
  | nil σ => exact hsettled
  | cons hdown hup hrest ih =>
    obtain ⟨hinv, hcurrent, -⟩ := hdown.spec hdigest h
    have hcurrent := hcurrent _ (.inl rfl)
    obtain ⟨hhead, hclean⟩ := hdown.isSettledOn hdigest h hsettled
    have hfiles := Replicas.files_eq_head (hclean _) (hinv.isCurrent hcurrent)
    obtain ⟨hinv', -⟩ := hup.spec hdigest hinv hcurrent
    exact ih hinv' (hup.isSettledOn hdigest hinv hcurrent (hfiles.trans hhead) fun e _ ↦ hclean e)

theorem Downloads.isSettledOn (hdigest : Client.IsHexDigest sha256) {files : Text → Option Bytes}
    {cs : List ι} (hdowns : Downloads sha256 userId namespaceId σ cs σ')
    (h : Inv sha256 userId namespaceId bytesOf base σ)
    (hsettled : IsSettledOn files (σ.abs userId namespaceId base)) :
    IsSettledOn files (σ'.abs userId namespaceId base) := by
  induction hdowns with
  | nil σ => exact hsettled
  | cons hdown hrest ih =>
    obtain ⟨hinv, -⟩ := hdown.spec hdigest h
    exact ih hinv (hdown.isSettledOn hdigest h hsettled)

end Rounds

/-! ## 4. An example -/

def recipeStart : Client.StartEnv := ⟨false, fun _ _ ↦ false⟩

def recipeIndex : Client.IndexEnv := ⟨recipeScan, ⟨.inOrder, .inOrder⟩, ⟨false, false, false⟩⟩

/-- The first device when it has indexed the recipe. -/
def recipeIndexed : Client.ClientState :=
  indexedState recipeStart recipeIndex 1 (recipeFleet.state false)

def recipeFirst : Client.Syncer.UploadEnv := photoEnv nothingStored 1

def recipeStored : Text → Bool :=
  storedAfter Client.Chunker.recipeDigest nothingStored 1 recipeFirst recipeIndexed

def recipeSecond : Client.Syncer.UploadEnv := photoEnv recipeStored 1

def recipeJournal : Server.Journal :=
  (Server.commitRecord .empty ⟨1, "87428fc522".toList, false, "a.cook".toList⟩).2

/-- One device and the server are in new states. -/
def replaced (σ : Fleet Bool) (c : Bool) (s : Client.ClientState) (journal : Server.Journal)
    (store : Text → Option Bytes) : Fleet Bool :=
  ⟨Peers.set { σ.peers with journal := journal } c ⟨s, [], []⟩, store⟩

theorem state_replaced (σ : Fleet Bool) (c : Bool) (s : Client.ClientState) (journal : Server.Journal)
    (store : Text → Option Bytes) (e : Bool) :
    (replaced σ c s journal store).state e = if e = c then s else σ.state e := state_set _ _ _ _ _

-- A download that is answered with no record.
def quietDownload : Client.Syncer.DownloadEnv :=
  { recipeDownload with batch := fun _ ↦ ⟨401, none, []⟩ }

def afterQuiet (σ : Fleet Bool) (c : Bool) : Fleet Bool :=
  replaced σ c ((σ.state c).started recipeStart.evicts) σ.journal σ.store

theorem downloadTurn_quiet {σ : Fleet Bool} {c : Bool} (h : Server.list σ.journal 1
    (Client.Syncer.latestLocal quietDownload (σ.state c) 1) = []) :
    DownloadTurn Client.Chunker.recipeDigest 1 (fun _ ↦ 1) c recipeStart quietDownload [] σ
      (afterQuiet σ c) where
  listed := by rw [h]; exact .refl _
  delivers _ chunk hmem := absurd hmem (List.not_mem_nil)
  runs := by
    rw [afterQuiet, state_replaced, if_pos rfl]
    rfl
  others e he := (state_replaced _ _ _ _ _ e).trans (if_neg he)
  journal := rfl
  store := rfl

/-- The first device has uploaded the recipe. -/
def recipeUploaded : Fleet Bool :=
  replaced recipeFleet false
    (Client.runUploadOnce Client.Chunker.recipeDigest recipeStart 1 (recipeFleet.state false)
      recipeIndex recipeFirst recipeSecond).1
    recipeJournal (storeChunks (fun _ ↦ none) [recipeChunk])

theorem pending_recipeIndexed : recipeIndexed.registry.updatedLocally 1 = [recipeRow] := by
  decide +kernel

/-- The first device after the first pass, which has sent the line of the recipe. -/
def recipeSent : Client.ClientState :=
  (Client.Syncer.checkUploadOnce Client.Chunker.recipeDigest recipeFirst 1 recipeIndexed).1

theorem recipeFirst_refused :
    (Client.Syncer.checkUploadOnce Client.Chunker.recipeDigest recipeFirst 1 recipeIndexed).2 =
      .ok false := by
  decide +kernel

theorem isServed_recipeFirst : IsServed Client.Chunker.recipeDigest 1 nothingStored 1 recipeFirst
    recipeIndexed .empty .empty := by
  have hcommit := @commit_sentIds _ 1 Client.Chunker.isHexDigest_recipeDigest nothingStored
    recipeReads recipeIndexed recipeRow .empty
  refine isServed_photoEnv nothingStored 1 pending_recipeIndexed (hcommit.trans (if_neg ?_))
  decide +kernel

theorem isServed_recipeSecond : IsServed Client.Chunker.recipeDigest 1 recipeStored 1 recipeSecond
    recipeSent .empty recipeJournal := by
  have hpending : recipeSent.registry.updatedLocally 1 = [recipeRow] := by decide +kernel
  have hall : (Client.Syncer.fileIds Client.Chunker.recipeDigest recipeReads recipeSent
      recipeRow).all recipeStored = true := by decide +kernel
  have hids : Client.Syncer.sentIds Client.Chunker.recipeDigest recipeReads recipeSent recipeRow =
      "87428fc522".toList := by decide +kernel
  have hcommit := @commit_sentIds _ 1 Client.Chunker.isHexDigest_recipeDigest recipeStored
    recipeReads recipeSent recipeRow .empty
  rw [hids] at hcommit
  exact isServed_photoEnv recipeStored 1 hpending (hids ▸ hcommit.trans (if_pos hall))

/-- The first device uploads the recipe. -/
theorem uploadTurn_recipe {σ : Fleet Bool} (hstate : σ.state false = recipeFleet.state false)
    (hother : σ.state true = recipeFleet.state true) (hjournal : σ.journal = .empty)
    (hstore : σ.store = fun _ ↦ none) :
    UploadTurn Client.Chunker.recipeDigest 1 (fun _ ↦ 1) storageOf false recipeStart recipeIndex
      recipeFirst recipeSecond σ recipeUploaded where
  opens := rfl
  evictsNothing _ _ := rfl
  walkable _ := rfl
  indexes := ⟨true, by rw [hstate]; decide +kernel⟩
  served := by
    have hstored : σ.stored = nothingStored := by
      funext id
      rw [stored, hstore]
      rfl
    have hsent : Client.Syncer.sentBatches Client.Chunker.recipeDigest recipeFirst 1 recipeIndexed =
        [[recipeChunk]] := by decide +kernel
    have hsent' : Client.Syncer.sentBatches Client.Chunker.recipeDigest recipeSecond 1 recipeSent =
        [] := by decide +kernel
    rw [hstate]
    change IsServedOnce _ _ _ _ 1 recipeIndexed _ _
    refine ⟨.empty, ?_, ?_⟩
    · rw [hstored, hjournal]
      exact isServed_recipeFirst
    · rw [recipeFirst_refused, if_neg (by simp), hstored, hsent]
      refine ⟨isServed_recipeSecond, ?_⟩
      rw [show (Client.Syncer.checkUploadOnce _ recipeFirst 1 recipeIndexed).1 = recipeSent from rfl,
        hsent', hstore]
      rfl
  rereads := rereadsKnown_of_sameReads fun _ _ _ _ ↦ rfl
  runs := by
    rw [hstate]
    exact ((state_replaced _ _ _ _ _ _).trans (if_pos rfl)).symm
  others e he := by
    cases e with
    | false => exact absurd rfl he
    | true => exact ((state_replaced _ _ _ _ _ _).trans (if_neg he)).trans hother.symm

def recipeResponse : List Client.ResponseFileRecord :=
  [⟨1, "a.cook".toList, false, "87428fc522".toList⟩]

/-- The second device has downloaded the recipe. -/
def recipeFetched : Fleet Bool :=
  replaced recipeUploaded true
    (Client.runDownloadOnce Client.Chunker.recipeDigest recipeStart 1 (recipeUploaded.state true)
      recipeDownload fun _ ↦ .ok recipeResponse).1
    recipeUploaded.journal recipeUploaded.store

theorem downloadTurn_recipe : DownloadTurn Client.Chunker.recipeDigest 1 (fun _ ↦ 1) true recipeStart
    recipeDownload recipeResponse recipeUploaded recipeFetched where
  listed := by
    have hlist : (Server.list recipeUploaded.journal 1
        (Client.Syncer.latestLocal recipeDownload (recipeUploaded.state true) 1)).map respond =
          recipeResponse := by decide +kernel
    rw [hlist]
  delivers ids chunk hchunk := by
    have hbatch : (Client.downloadBatch (recipeDownload.batch [])).1 = [recipeChunk] := by
      decide +kernel
    rw [show recipeDownload.batch ids = recipeDownload.batch [] from rfl, hbatch] at hchunk
    rw [List.mem_singleton.mp hchunk]
    decide +kernel
  runs := by
    have hok : (Client.runDownloadOnce Client.Chunker.recipeDigest recipeStart 1
        (recipeUploaded.state true) recipeDownload fun _ ↦ .ok recipeResponse).2 = .ok () := by
      decide +kernel
    rw [recipeFetched, state_replaced, if_pos rfl]
    exact Prod.ext rfl hok
  others e he := (state_replaced _ _ _ _ _ e).trans (if_neg he)
  journal := rfl
  store := rfl

def quietUpload : Client.Syncer.UploadEnv := photoEnv nothingStored 1

/-- The second device has found nothing to upload. -/
def recipeSettled : Fleet Bool :=
  replaced recipeFetched true
    (Client.runUploadOnce Client.Chunker.recipeDigest recipeStart 1 (recipeFetched.state true)
      recipeIndex quietUpload quietUpload).1
    recipeFetched.journal recipeFetched.store

theorem uploadTurn_quiet : UploadTurn Client.Chunker.recipeDigest 1 (fun _ ↦ 1) storageOf true
    recipeStart recipeIndex quietUpload quietUpload recipeFetched recipeSettled where
  opens := rfl
  evictsNothing _ _ := rfl
  walkable _ := rfl
  indexes := ⟨false, by decide +kernel⟩
  served := by
    have hpending : (indexedState recipeStart recipeIndex 1
        (recipeFetched.state true)).registry.updatedLocally 1 = [] := by decide +kernel
    refine ⟨recipeFetched.journal, ⟨rfl, fun _ ↦ rfl, fun _ ↦ rfl, fun _ ↦ rfl, ?_⟩, ?_⟩
    · rw [hpending]
      rfl
    · rw [if_pos (by decide +kernel)]
      have hsent : Client.Syncer.sentBatches Client.Chunker.recipeDigest quietUpload 1
          (indexedState recipeStart recipeIndex 1 (recipeFetched.state true)) = [] := by
        decide +kernel
      rw [hsent]
      exact ⟨rfl, rfl⟩
  rereads := rereadsKnown_of_sameReads fun _ _ _ _ ↦ rfl
  runs := ((state_replaced _ _ _ _ _ _).trans (if_pos rfl)).symm
  others e he := (state_replaced _ _ _ _ _ e).trans (if_neg he)

/-- Both devices have asked once more. -/
def recipeSynced : Fleet Bool := afterQuiet (afterQuiet recipeSettled false) true

theorem syncs_recipe : Syncs Client.Chunker.recipeDigest 1 (fun _ ↦ 1) storageOf recipeUploaded
    [true] recipeSettled :=
  .cons downloadTurn_recipe uploadTurn_quiet (.nil _)

theorem downloads_recipe : Downloads Client.Chunker.recipeDigest 1 (fun _ ↦ 1) recipeSettled
    [false, true] recipeSynced :=
  .cons (downloadTurn_quiet (by decide +kernel))
    (.cons (downloadTurn_quiet (by decide +kernel)) (.nil _))

theorem contents_synced_recipe : contentsOf (recipeSynced.disk true) (storageOf true) =
    snapshot recipeSynced.store recipeSynced.journal 1 := by
  have hfirst : Syncs Client.Chunker.recipeDigest 1 (fun _ ↦ 1) storageOf recipeFleet
      [false, true] recipeSettled :=
    .cons (downloadTurn_quiet (by decide +kernel))
      (uploadTurn_recipe (((state_replaced _ _ _ _ _ _).trans (if_pos rfl)))
        ((state_replaced _ _ _ _ _ _).trans (if_neg (by decide))) rfl rfl) syncs_recipe
  exact contents_synced Client.Chunker.isHexDigest_recipeDigest (.init fresh_recipeFleet) hfirst
    (by decide) downloads_recipe (by decide) true

end Fleet

end CooklangSync.System
