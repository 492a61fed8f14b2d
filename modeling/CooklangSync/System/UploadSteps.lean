import CooklangSync.Client.Fetch
import CooklangSync.System.Convergence

/-!
# UploadSteps — an upload pass is a run of the fleet

When the server answers the requests of `check_upload_once`, each row is a step of the fleet: it is
committed, or refused and its lacking chunks are queued.  The batches at the end are one step more.
-/

namespace CooklangSync.System

open Theory
open Watched (newest newest_spec newest_updateJid setJid_eq)

namespace Fleet

section UploadSteps

variable {ι : Type} [DecidableEq ι] {sha256 : Bytes → Text} {userId : Int} {namespaceId : ι → Int}
  {bytesOf : Text → Bytes} {base : ι → Place Name} {σ σ' : Fleet ι}

/-! ## 1. What an upload pass does -/

/-- A step of an upload pass of the device. -/
def IsUploading (c : ι) : FleetAction ι → Prop
  | .commit d _ _ => d = c
  | .refuse d _ _ => d = c
  | .upload d _ => d = c
  | _ => False

variable (sha256 userId namespaceId bytesOf base) in
/-- A careful step of an upload pass of the device. -/
def IsCarefulUpload (c : ι) (σ : Fleet ι) (a : FleetAction ι) : Prop :=
  IsUploading c a ∧ IsCareful sha256 userId namespaceId bytesOf base σ a

variable (sha256 userId namespaceId bytesOf base) in
/-- An upload pass of the device leads from one state to the other. -/
def Uploads (c : ι) : Fleet ι → Fleet ι → Prop :=
  (system sha256 userId namespaceId bytesOf base).Leads
    (IsCarefulUpload sha256 userId namespaceId bytesOf base c)

/-- What hashing the file of a row does to the chunker. -/
theorem hashFile_grows {s : Client.ClientState} (hevicts : s.chunker.EvictsNothing)
    (reads : Client.Chunker.ReadEnv) (f : Client.FileRecord) :
    Client.Chunker.Grows s.chunker (Client.Syncer.hashFile sha256 reads s f).1 := by
  have hgrows := Client.Chunker.grows_hashify sha256 hevicts s.disk reads f.path
  rw [Client.Syncer.hashFile]
  split
  · exact .refl hevicts
  · generalize s.chunker.hashify sha256 s.disk reads f.path = r at hgrows ⊢
    obtain ⟨chunker, outcome⟩ := r
    cases outcome <;> exact hgrows

variable (sha256 userId namespaceId) in
/-- What a step of an upload pass may do to its device: a file is hashed, a row gets a jid. -/
structure UploadStep (c : ι) (σ σ' : Fleet ι) : Prop where
  others : ∀ e, e ≠ c → σ'.state e = σ.state e
  disk : σ'.disk c = σ.disk c
  chunker : (σ'.state c).chunker = (σ.state c).chunker ∨ ∃ reads f chunkIds,
    Client.Syncer.hashFile sha256 reads (σ.state c) f = ((σ'.state c).chunker, .ok chunkIds)
  registry : σ'.registry c = σ.registry c ∧ σ'.journal = σ.journal ∨
    ∃ f reads chunker chunkIds jid,
      IsCommitted sha256 userId (namespaceId c) σ c f reads chunker chunkIds jid σ'.journal ∧
      σ'.registry c = (σ.registry c).updateJid f jid

theorem uploadStep_of_next {c : ι} {a : FleetAction ι} (hup : IsUploading c a)
    (hstep : next sha256 userId namespaceId σ a = some σ') :
    UploadStep sha256 userId namespaceId c σ σ' := by
  cases a with
  | commit d f reads =>
    obtain rfl : d = c := hup
    obtain ⟨p, chunker, chunkIds, jid, journal', hcommit, hp, rfl⟩ := next_commit hstep
    have hself : state ⟨Peers.set { σ.peers with journal := journal' } d p, σ.store⟩ d =
        ⟨(σ.registry d).updateJid f jid, chunker, σ.disk d⟩ := by
      rw [state_set, if_pos rfl, hp]
    refine ⟨fun e he ↦ ?_, ?_, .inr ⟨reads, f, chunkIds, ?_⟩,
      .inr ⟨f, reads, chunker, chunkIds, jid, hcommit, ?_⟩⟩
    · rw [state_set, if_neg he]
      rfl
    · rw [disk, hself]
    · rw [hself]
      exact hcommit.hash
    · rw [registry, hself]
  | refuse d f reads =>
    obtain rfl : d = c := hup
    obtain ⟨chunker, chunkIds, hhash, rfl⟩ := refuse_quiet hstep
    have hself : (σ.setChunker d chunker).state d = ⟨σ.registry d, chunker, σ.disk d⟩ :=
      (state_set _ _ _ _ _).trans (if_pos rfl)
    refine ⟨fun e he ↦ (state_set _ _ _ _ _).trans (if_neg he), ?_, .inr ⟨reads, f, chunkIds, ?_⟩,
      .inl ⟨?_, rfl⟩⟩
    · rw [disk, hself]
    · rw [hself]
      exact hhash
    · rw [registry, hself]
  | upload d chunks =>
    obtain rfl : d = c := hup
    rw [upload_quiet hstep]
    exact ⟨fun _ _ ↦ rfl, rfl, .inl rfl, .inl ⟨rfl, rfl⟩⟩
  | edit d disk => cases hup
  | index d env order faults => cases hup
  | download d env response => cases hup
  | restart d evicts => cases hup
  | foreign other payload => cases hup
  | deposit chunks => cases hup

/-! ## 2. What an upload pass keeps -/

variable (userId namespaceId) in
/-- What an upload pass leaves as it is: the other devices, the disk, what the rows say of the files,
and that the device has seen all records. -/
structure UploadKeeps (c : ι) (σ σ' : Fleet ι) : Prop where
  others : ∀ e, e ≠ c → σ'.state e = σ.state e
  disk : σ'.disk c = σ.disk c
  basePath : (σ'.state c).chunker.basePath = (σ.state c).chunker.basePath
  grows : (σ.state c).chunker.EvictsNothing →
    Client.Chunker.Grows (σ.state c).chunker (σ'.state c).chunker
  liveView : ∀ p, Client.liveView (σ'.registry c) (namespaceId c) p =
    Client.liveView (σ.registry c) (namespaceId c) p
  current : IsCurrent userId namespaceId σ c → IsCurrent userId namespaceId σ' c

omit [DecidableEq ι] in
theorem UploadKeeps.refl (c : ι) (σ : Fleet ι) : UploadKeeps userId namespaceId c σ σ :=
  ⟨fun _ _ ↦ rfl, rfl, rfl, .refl, fun _ ↦ rfl, id⟩

omit [DecidableEq ι] in
theorem UploadKeeps.trans {c : ι} {σ₁ σ₂ σ₃ : Fleet ι}
    (h : UploadKeeps userId namespaceId c σ₁ σ₂) (h' : UploadKeeps userId namespaceId c σ₂ σ₃) :
    UploadKeeps userId namespaceId c σ₁ σ₃ where
  others e he := (h'.others e he).trans (h.others e he)
  disk := h'.disk.trans h.disk
  basePath := h'.basePath.trans h.basePath
  grows hevicts := (h.grows hevicts).trans (h'.grows (h.grows hevicts).evictsNothing)
  liveView p := (h'.liveView p).trans (h.liveView p)
  current hcurrent := h'.current (h.current hcurrent)

theorem liveView_updateJid (registry : Client.Registry) (f : Client.FileRecord) (jid : Int)
    (namespaceId : Int) (p : Text) : Client.liveView (registry.updateJid f jid) namespaceId p =
      Client.liveView registry namespaceId p := by
  rw [liveView_newest, liveView_newest, newest_updateJid]
  cases newest registry namespaceId p with
  | none => rfl
  | some r =>
    rw [Option.map_some, Option.bind_some, Option.bind_some, setJid_eq]

omit [DecidableEq ι] in
theorem UploadStep.keeps {c : ι} (h : UploadStep sha256 userId namespaceId c σ σ') :
    UploadKeeps userId namespaceId c σ σ' where
  others := h.others
  disk := h.disk
  basePath := by
    rcases h.chunker with heq | ⟨reads, f, chunkIds, hhash⟩
    · rw [heq]
    · exact (Client.Syncer.hashFile_ok hhash).1
  grows hevicts := by
    rcases h.chunker with heq | ⟨reads, f, chunkIds, hhash⟩
    · rw [heq]
      exact .refl hevicts
    · have hgrows : Client.Chunker.Grows _ (Client.Syncer.hashFile sha256 reads _ f).1 :=
        hashFile_grows hevicts reads f
      rwa [hhash] at hgrows
  liveView p := by
    rcases h.registry with ⟨heq, -⟩ | ⟨f, reads, chunker, chunkIds, jid, -, heq⟩
    · rw [heq]
    · rw [heq, liveView_updateJid]
  current hcurrent := by
    rcases h.registry with ⟨heq, hjournal⟩ | ⟨f, reads, chunker, chunkIds, jid, hcommit, heq⟩
    · rw [IsCurrent, heq, hjournal]
      exact hcurrent
    · obtain ⟨⟨hf, hnone, hns⟩, -, haccepted⟩ := hcommit
      rw [IsCurrent, heq]
      exact cursor_commit hf hns hnone rfl (Server.commit_success _ haccepted) hcurrent

theorem Uploads.keeps {c : ι} (h : Uploads sha256 userId namespaceId bytesOf base c σ σ') :
    UploadKeeps userId namespaceId c σ σ' :=
  System.Leads.invariant (P := UploadKeeps userId namespaceId c σ) h
    (fun _ _ _ hkeeps hok hstep ↦ hkeeps.trans (uploadStep_of_next hok.1 hstep).keeps) (.refl c σ)

theorem Uploads.inv (hdigest : Client.IsHexDigest sha256) {c : ι}
    (h : Uploads sha256 userId namespaceId bytesOf base c σ σ')
    (hinv : Inv sha256 userId namespaceId bytesOf base σ) :
    Inv sha256 userId namespaceId bytesOf base σ' :=
  System.Leads.invariant h (fun _ _ _ hinv hok hstep ↦ hinv.next hdigest hok.2 hstep) hinv

/-- An upload pass of one device does not touch what is clean on another. -/
theorem Uploads.isClean (hdigest : Client.IsHexDigest sha256) {c e : ι} (hne : e ≠ c)
    (h : Uploads sha256 userId namespaceId bytesOf base c σ σ')
    (hinv : Inv sha256 userId namespaceId bytesOf base σ)
    (hclean : (σ.abs userId namespaceId base).IsClean e) :
    (σ'.abs userId namespaceId base).IsClean e := by
  refine (System.Leads.invariant (P := fun σ : Fleet ι ↦
    Inv sha256 userId namespaceId bytesOf base σ ∧ (σ.abs userId namespaceId base).IsClean e) h
    ?_ ⟨hinv, hclean⟩).2
  rintro s a s' ⟨hinv, hclean⟩ ⟨hup, hok⟩ hstep
  refine ⟨hinv.next hdigest hok hstep, ?_⟩
  have habs := (simulates hdigest).step s a s' hinv hok hstep
  cases hact : act base s a with
  | none =>
    rw [hact] at habs
    rw [← Option.some.inj habs]
    exact hclean
  | some b =>
    rw [hact, Option.toList_some, System.run_singleton] at habs
    have hb : (∀ files, b ≠ .edit e files) ∧ ∀ k, b ≠ .withdraw e k := by
      cases a with
      | commit d f reads =>
        obtain rfl : d = c := hup
        rw [act, Option.some.injEq] at hact
        rw [← hact]
        constructor
        · intro files heq
          split at heq <;> cases heq
        · intro k heq
          split at heq
          · cases heq
            exact hne rfl
          · cases heq
      | refuse d f reads => cases hact
      | upload d chunks => cases hact
      | edit d disk => cases hup
      | index d env order faults => cases hup
      | download d env response => cases hup
      | restart d evicts => cases hup
      | foreign other payload => cases hup
      | deposit chunks => cases hup
    exact hclean.next hb.1 hb.2 habs

/-! ## 3. The rows of a pass -/

/-- The ids that hashing comes to are those that are sent. -/
theorem sentIds_of_hashFile {reads : Client.Chunker.ReadEnv} {s : Client.ClientState}
    {f : Client.FileRecord} {chunker : Client.Chunker} {chunkIds : Text}
    (h : Client.Syncer.hashFile sha256 reads s f = (chunker, .ok chunkIds)) :
    chunkIds = Client.Syncer.sentIds sha256 reads s f := by
  rw [Client.Syncer.sentIds, Client.Syncer.fileIds]
  cases hdel : f.deleted with
  | true =>
    rw [Client.Syncer.hashFile, if_pos hdel] at h
    cases h
    rfl
  | false =>
    obtain ⟨file, hfile, hids⟩ := (Client.Syncer.hashFile_ok h).2 hdel
    rw [hfile]
    exact hids

/-- The row is pending, and it is the newest one of its path. -/
structure IsUploadable (registry : Client.Registry) (namespaceId : Int) (f : Client.FileRecord) :
    Prop where
  newest : newest registry namespaceId f.path = some f
  jid : f.jid = none

theorem IsUploadable.mem {registry : Client.Registry} {namespaceId : Int} {f : Client.FileRecord}
    (h : IsUploadable registry namespaceId f) :
    f ∈ registry.rows ∧ f.namespaceId = namespaceId := by
  obtain ⟨hmem, hns, -⟩ := newest_spec h.newest
  exact ⟨hmem, hns⟩

theorem isUploadable_of_pending {registry : Client.Registry} {namespaceId : Int}
    {f : Client.FileRecord} (hf : f ∈ registry.updatedLocally namespaceId) :
    IsUploadable registry namespaceId f := by
  rw [Client.Registry.updatedLocally, List.mem_filter, Table.mem_latest_iff] at hf
  exact ⟨hf.1, Option.isNone_iff_eq_none.mp hf.2⟩

/-- The jid that a row gets leaves the others to be uploaded. -/
theorem IsUploadable.updateJid {registry : Client.Registry} {namespaceId : Int}
    {f g : Client.FileRecord} (h : IsUploadable registry namespaceId g) (hne : g.id ≠ f.id)
    (jid : Int) : IsUploadable (registry.updateJid f jid) namespaceId g := by
  refine ⟨?_, h.jid⟩
  rw [newest_updateJid, h.newest, Option.map_some, Client.Registry.FileRecord.setJid, if_neg hne]

/-- The chunk is in the cache of the device, and it is the one of its id. -/
def IsQueued (bytesOf : Text → Bytes) (σ : Fleet ι) (c : ι) (chunk : Client.Chunk) : Prop :=
  ((σ.state c).chunker.cache.entries chunk.1).isSome ∧ chunk.2 = bytesOf chunk.1

omit [DecidableEq ι] in
theorem IsQueued.grows {c : ι} {chunk : Client.Chunk} (h : IsQueued bytesOf σ c chunk)
    (hgrows : Client.Chunker.Grows (σ.state c).chunker (σ'.state c).chunker) (hne : chunk.1 ≠ []) :
    IsQueued bytesOf σ' c chunk := by
  have hcached := hgrows.cached chunk.1
  rw [Client.Chunker.checkChunk, Client.Chunker.checkChunk, if_neg hne, if_neg hne] at hcached
  exact ⟨hcached h.1, h.2⟩

omit [DecidableEq ι] in
theorem IsQueued.isCached {c : ι} {chunk : Client.Chunk} (h : IsQueued bytesOf σ c chunk)
    (hinv : Inv sha256 userId namespaceId bytesOf base σ) : σ.isCached c chunk = true := by
  obtain ⟨hcached, hdata⟩ := h
  obtain ⟨data, hentry⟩ := Option.isSome_iff_exists.mp hcached
  have hwhole : data = bytesOf chunk.1 := (hinv.device c).agrees chunk.1 data _ hentry rfl
  rw [Fleet.isCached, hentry, hwhole, hdata, beq_self_eq_true]

/-- What a part of a pass comes to: the rows are committed or refused, the chunks are queued. -/
structure PassLeads (sha256 : Bytes → Text) (userId : Int) (namespaceId : ι → Int)
    (bytesOf : Text → Bytes) (base : ι → Place Name) (c : ι) (σ σ' : Fleet ι)
    (s' : Client.ClientState) (journal' : Server.Journal) (q q' : Client.UploadQueue) : Prop where
  uploads : Uploads sha256 userId namespaceId bytesOf base c σ σ'
  state : σ'.state c = s'
  journal : σ'.journal = journal'
  store : σ'.store = σ.store
  queued : ∃ chunks : List Client.Chunk, q' = chunks.foldl Client.UploadQueue.push q ∧
    ∀ chunk ∈ chunks, chunk.1 ≠ [] ∧ IsQueued bytesOf σ' c chunk

omit [DecidableEq ι] in
theorem IsUploadable.isPending {c : ι} {f : Client.FileRecord}
    (h : IsUploadable (σ.registry c) (namespaceId c) f) :
    σ.peers.isPending namespaceId c f = true := by
  obtain ⟨hmem, hns⟩ := h.mem
  rw [Peers.isPending, h.jid, hns, Option.isNone_none, Bool.and_true, beq_self_eq_true,
    Bool.and_true]
  exact List.contains_iff_mem.mpr hmem

theorem next_of_accepted {c : ι} {f : Client.FileRecord}
    (hf : IsUploadable (σ.registry c) (namespaceId c) f) {reads : Client.Chunker.ReadEnv}
    {chunker : Client.Chunker} {chunkIds : Text}
    (hhash : Client.Syncer.hashFile sha256 reads (σ.state c) f = (chunker, .ok chunkIds))
    {jid : Int} {journal' : Server.Journal}
    (hcommit : Server.commit (isStored σ.stored) σ.journal userId ⟨f.path, f.deleted, chunkIds⟩ =
      .ok (.success jid, journal')) :
    ∃ p : Peer, next sha256 userId namespaceId σ (.commit c f reads) =
        some ⟨Peers.set { σ.peers with journal := journal' } c p, σ.store⟩ ∧
      p.state = ⟨(σ.registry c).updateJid f jid, chunker, σ.disk c⟩ := by
  have hhash' : Client.Syncer.hashFile sha256 reads (σ.peers.peer c).state f =
      (chunker, .ok chunkIds) := hhash
  have hcommit' : Server.commit (isStored σ.stored) σ.peers.journal userId
      ⟨f.path, f.deleted, chunkIds⟩ = .ok (.success jid, journal') := hcommit
  refine ⟨⟨⟨(σ.registry c).updateJid f jid, chunker, σ.disk c⟩, (σ.peers.peer c).committed ++ [jid],
    (σ.peers.peer c).applied⟩, ?_, rfl⟩
  rw [next, afterPeers, Peers.next, if_pos hf.isPending, hhash']
  simp only [hcommit']
  rfl

theorem next_of_refused {c : ι} {f : Client.FileRecord}
    (hf : IsUploadable (σ.registry c) (namespaceId c) f) {reads : Client.Chunker.ReadEnv}
    {chunker : Client.Chunker} {chunkIds : Text}
    (hhash : Client.Syncer.hashFile sha256 reads (σ.state c) f = (chunker, .ok chunkIds))
    {lacked : Text} {journal' : Server.Journal}
    (hcommit : Server.commit (isStored σ.stored) σ.journal userId ⟨f.path, f.deleted, chunkIds⟩ =
      .ok (.needChunks lacked, journal')) :
    next sha256 userId namespaceId σ (.refuse c f reads) = some (σ.setChunker c chunker) := by
  rw [next, if_pos hf.isPending, hhash]
  simp only [hcommit]

theorem mem_readChunks {chunker : Client.Chunker} {ids : List Text} {chunks : List Client.Chunk}
    (h : Client.Syncer.readChunks chunker ids = .ok chunks) {chunk : Client.Chunk}
    (hmem : chunk ∈ chunks) : chunk.1 ∈ ids ∧ chunker.readChunk chunk.1 = .ok chunk.2 := by
  induction ids generalizing chunks with
  | nil =>
    cases h
    cases hmem
  | cons id ids ih =>
    obtain ⟨data, hdata, h⟩ := Outcome.bind_eq_ok h
    obtain ⟨rest, hrest, h⟩ := Outcome.bind_eq_ok h
    cases h
    rcases List.mem_cons.mp hmem with rfl | hmem
    · exact ⟨List.mem_cons_self, hdata⟩
    · obtain ⟨hid, hcached⟩ := ih hrest hmem
      exact ⟨List.mem_cons_of_mem id hid, hcached⟩

variable (hdigest : Client.IsHexDigest sha256)
include hdigest

/-- An answer that asks for chunks asks for some of those of the row. -/
theorem lacked_of_commit {stored : Text → Bool} {journal journal' : Server.Journal}
    {reads : Client.Chunker.ReadEnv} {s : Client.ClientState} {f : Client.FileRecord} {lacked : Text}
    (h : Server.commit (isStored stored) journal userId
      ⟨f.path, f.deleted, Client.Syncer.sentIds sha256 reads s f⟩ =
        .ok (.needChunks lacked, journal')) :
    journal = journal' ∧ ∀ id ∈ lacked.splitOn ',', id ≠ [] := by
  rw [commit_sentIds hdigest] at h
  dsimp only at h
  split at h
  · cases h
  · rename_i hall
    obtain ⟨hids, hjournal⟩ := Prod.mk.inj (Outcome.ok.inj h)
    refine ⟨hjournal, fun id hid ↦ ?_⟩
    rw [← Server.CommitResultStatus.needChunks.inj hids, splitOn_lacking hdigest hall] at hid
    exact (Client.Syncer.ne_nil_of_mem_fileIds hdigest (List.mem_filter.mp hid).1).1

/-- A row that is answered: the server accepts it, or its lacking chunks are queued. -/
theorem uploadFile_leads (h : Inv sha256 userId namespaceId bytesOf base σ) {c : ι}
    (hcurrent : IsCurrent userId namespaceId σ c) {f : Client.FileRecord}
    (hf : IsUploadable (σ.registry c) (namespaceId c) f) {env : Client.Syncer.UploadEnv} {i : Nat}
    {status : Server.CommitResultStatus}
    {journal' : Server.Journal} (hcommit : Server.commit (isStored σ.stored) σ.journal userId
      ⟨f.path, f.deleted, Client.Syncer.sentIds sha256 (env.reads i) (σ.state c) f⟩ =
        .ok (status, journal'))
    (hanswer : env.commit i f (Client.Syncer.sentIds sha256 (env.reads i) (σ.state c) f) =
      .ok (answerOf status)) {q q' : Client.UploadQueue} {s' : Client.ClientState} {accepted : Bool}
    (hpass : Client.Syncer.uploadFile sha256 env i (σ.state c) f q = (s', .ok (q', accepted))) :
    ∃ σ', PassLeads sha256 userId namespaceId bytesOf base c σ σ' s' journal' q q' ∧
      ∀ g, g.id ≠ f.id → IsUploadable (σ.registry c) (namespaceId c) g →
        IsUploadable (σ'.registry c) (namespaceId c) g := by
  rw [Client.Syncer.uploadFile] at hpass
  cases hhash : Client.Syncer.hashFile sha256 (env.reads i) (σ.state c) f with
  | mk chunker outcome =>
    rw [hhash] at hpass
    cases outcome with
    | err e => cases hpass
    | panic => cases hpass
    | ok chunkIds =>
      have hlacked := hcommit
      rw [← sentIds_of_hashFile hhash] at hcommit hanswer
      simp only [hanswer] at hpass
      cases status with
      | success jid =>
        obtain ⟨p, hstep, hp⟩ := next_of_accepted hf hhash hcommit
        have hself : state ⟨Peers.set { σ.peers with journal := journal' } c p, σ.store⟩ c =
            ⟨(σ.registry c).updateJid f jid, chunker, σ.disk c⟩ := by
          rw [state_set, if_pos rfl, hp]
        rw [answerOf, Client.Syncer.recordAnswer] at hpass
        split at hpass
        · cases hpass
        · cases hpass
          have hok : IsCarefulUpload sha256 userId namespaceId bytesOf base c σ
              (.commit c f (env.reads i)) := ⟨rfl, hcurrent, hf.newest⟩
          refine ⟨_, ⟨System.leads_of_step hok hstep, hself, rfl, rfl, [], rfl,
            fun _ hmem ↦ absurd hmem List.not_mem_nil⟩, fun g hne hg ↦ ?_⟩
          rw [registry, hself]
          exact hg.updateJid hne jid
      | needChunks lacked =>
        have hstep := next_of_refused hf hhash hcommit
        have hok : IsCarefulUpload sha256 userId namespaceId bytesOf base c σ
            (.refuse c f (env.reads i)) := ⟨rfl, trivial⟩
        have hself : (σ.setChunker c chunker).state c = ⟨σ.registry c, chunker, σ.disk c⟩ :=
          (state_set _ _ _ _ _).trans (if_pos rfl)
        obtain ⟨hjournal, hids⟩ := lacked_of_commit hdigest hlacked
        rw [answerOf, Client.Syncer.recordAnswer, Client.Syncer.enqueueChunks_eq] at hpass
        dsimp only at hpass
        cases hread : Client.Syncer.readChunks chunker (lacked.splitOn ',') with
        | err e =>
          rw [hread] at hpass
          cases hpass
        | panic =>
          rw [hread] at hpass
          cases hpass
        | ok chunks =>
          rw [hread] at hpass
          cases hpass
          refine ⟨_, ⟨System.leads_of_step hok hstep, hself, hjournal, rfl, chunks, rfl,
            fun chunk hmem ↦ ?_⟩, fun g _ hg ↦ ?_⟩
          · obtain ⟨hid, hcached⟩ := mem_readChunks hread hmem
            have hne := hids chunk.1 hid
            have hagrees := h.agreesWith_hashFile hf.mem.1 hf.mem.2 (env.reads i)
            rw [hhash] at hagrees
            rw [Client.Chunker.readChunk, Client.InMemoryCache.get, if_neg hne] at hcached
            cases hentry : chunker.cache.entries chunk.1 with
            | none =>
              rw [hentry] at hcached
              cases hcached
            | some data =>
              rw [hentry] at hcached
              refine ⟨hne, ?_, ?_⟩
              · rw [hself, hentry]
                rfl
              · rw [← Outcome.ok.inj hcached]
                exact hagrees chunk.1 data _ hentry rfl
          · rw [registry, hself]
            exact hg

omit hdigest in
theorem PassLeads.keeps {c : ι} {s' : Client.ClientState} {journal' : Server.Journal}
    {q q' : Client.UploadQueue}
    (h : PassLeads sha256 userId namespaceId bytesOf base c σ σ' s' journal' q q') :
    UploadKeeps userId namespaceId c σ σ' := h.uploads.keeps

omit hdigest in
theorem PassLeads.trans {c : ι} {σ₁ σ₂ σ₃ : Fleet ι} {s₁ s₂ : Client.ClientState}
    {journal₁ journal₂ : Server.Journal} {q₁ q₂ q₃ : Client.UploadQueue}
    (h : PassLeads sha256 userId namespaceId bytesOf base c σ₁ σ₂ s₁ journal₁ q₁ q₂)
    (h' : PassLeads sha256 userId namespaceId bytesOf base c σ₂ σ₃ s₂ journal₂ q₂ q₃)
    (hevicts : (σ₂.state c).chunker.EvictsNothing) :
    PassLeads sha256 userId namespaceId bytesOf base c σ₁ σ₃ s₂ journal₂ q₁ q₃ := by
  obtain ⟨chunks, hq, hqueued⟩ := h.queued
  obtain ⟨chunks', hq', hqueued'⟩ := h'.queued
  refine ⟨h.uploads.trans h'.uploads, h'.state, h'.journal, h'.store.trans h.store,
    chunks ++ chunks', ?_, fun chunk hmem ↦ ?_⟩
  · rw [List.foldl_append, ← hq, hq']
  · rcases List.mem_append.mp hmem with hmem | hmem
    · obtain ⟨hne, hold⟩ := hqueued chunk hmem
      exact ⟨hne, hold.grows (h'.keeps.grows hevicts) hne⟩
    · exact hqueued' chunk hmem

/-- The rows of a pass that the server answers in turn. -/
theorem uploadFiles_leads (h : Inv sha256 userId namespaceId bytesOf base σ) {c : ι}
    (hcurrent : IsCurrent userId namespaceId σ c) (hevicts : (σ.state c).chunker.EvictsNothing)
    {s : Client.ClientState} (hdisk : σ.disk c = s.disk)
    (hbase : (σ.state c).chunker.basePath = s.chunker.basePath) {fs : List Client.FileRecord}
    (hfs : ∀ f ∈ fs, IsUploadable (σ.registry c) (namespaceId c) f)
    (hdistinct : (fs.map Client.FileRecord.id).Nodup) {env : Client.Syncer.UploadEnv} {i : Nat}
    {journal' : Server.Journal}
    (hserves : Serves sha256 userId σ.stored env s i σ.journal fs journal')
    {q q' : Client.UploadQueue} {s' : Client.ClientState} {b b' : Bool}
    (hpass : Client.Syncer.uploadFiles sha256 env i (σ.state c) q b fs = (s', .ok (q', b'))) :
    ∃ σ', PassLeads sha256 userId namespaceId bytesOf base c σ σ' s' journal' q q' := by
  induction fs generalizing σ i q b with
  | nil =>
    cases hpass
    rw [show journal' = σ.journal from hserves]
    exact ⟨σ, .refl, rfl, rfl, rfl, [], rfl, fun _ hmem ↦ absurd hmem List.not_mem_nil⟩
  | cons f fs ih =>
    obtain ⟨status, journal₁, hcommit, hanswer, hrest⟩ := hserves
    have hsent : Client.Syncer.sentIds sha256 (env.reads i) s f =
        Client.Syncer.sentIds sha256 (env.reads i) (σ.state c) f := by
      rw [Client.Syncer.sentIds, Client.Syncer.sentIds,
        Client.Syncer.fileIds_congr sha256 (env.reads i) hdisk hbase f]
    rw [hsent] at hcommit hanswer
    obtain ⟨hnotmem, hdistinct⟩ := List.nodup_cons.mp hdistinct
    rw [Client.Syncer.uploadFiles] at hpass
    cases hfile : Client.Syncer.uploadFile sha256 env i (σ.state c) f q with
    | mk s₁ outcome =>
      rw [hfile] at hpass
      cases outcome with
      | err e => cases hpass
      | panic => cases hpass
      | ok answered =>
        obtain ⟨σ₁, hfirst, hothers⟩ := uploadFile_leads hdigest h hcurrent
          (hfs f List.mem_cons_self) hcommit hanswer hfile
        have hkeeps := hfirst.keeps
        have hevicts₁ := (hkeeps.grows hevicts).evictsNothing
        have hstored : σ₁.stored = σ.stored := by
          funext id
          rw [stored, stored, hfirst.store]
        obtain ⟨σ', hlast⟩ := ih (σ := σ₁) (hfirst.uploads.inv hdigest h) (hkeeps.current hcurrent)
          hevicts₁ (hkeeps.disk.trans hdisk) (hkeeps.basePath.trans hbase)
          (fun g hg ↦ hothers g (fun heq ↦ hnotmem (heq ▸ List.mem_map_of_mem hg))
            (hfs g (List.mem_cons_of_mem f hg))) hdistinct
          (by rw [hstored, hfirst.journal]; exact hrest) (by rw [hfirst.state]; exact hpass)
        exact ⟨σ', hfirst.trans hlast hevicts₁⟩

/-! ## 4. A pass -/

omit hdigest [DecidableEq ι] in
theorem isSome_storeChunks_iff (store : Text → Option Bytes) (chunks : List Client.Chunk)
    (id : Text) : (storeChunks store chunks id).isSome =
      ((store id).isSome || chunks.any fun chunk ↦ chunk.1 = id) := by
  induction chunks generalizing store with
  | nil => simp [storeChunks]
  | cons chunk chunks ih =>
    rw [storeChunks_cons, ih, List.any_cons, ← Bool.or_assoc]
    congr 1
    by_cases heq : id = chunk.1
    · rw [heq, Function.update_self]
      simp
    · rw [Function.update_of_ne heq]
      simp [Ne.symm heq]

/-- A pass of which the server answers all requests, from the state of the device on. -/
theorem checkUploadOnce_leads (h : Inv sha256 userId namespaceId bytesOf base σ) {c : ι}
    (hcurrent : IsCurrent userId namespaceId σ c) (hevicts : (σ.state c).chunker.EvictsNothing)
    {env : Client.Syncer.UploadEnv} {journal' : Server.Journal}
    (hserved : IsServed sha256 userId σ.stored (namespaceId c) env (σ.state c) σ.journal journal')
    {s' : Client.ClientState} {b : Bool}
    (hpass : Client.Syncer.checkUploadOnce sha256 env (namespaceId c) (σ.state c) = (s', .ok b)) :
    ∃ σ', Uploads sha256 userId namespaceId bytesOf base c σ σ' ∧ σ'.state c = s' ∧
      σ'.journal = journal' ∧ σ'.store = storeChunks σ.store
        (Client.Syncer.sentBatches sha256 env (namespaceId c) (σ.state c)).flatten := by
  rw [Client.Syncer.checkUploadOnce, hserved.query, if_neg Bool.false_ne_true] at hpass
  rw [Client.Syncer.sentBatches, hserved.query, if_neg Bool.false_ne_true]
  cases hfiles : Client.Syncer.uploadFiles sha256 env 0 (σ.state c) .empty true
      ((σ.state c).registry.updatedLocally (namespaceId c)) with
  | mk s₁ outcome =>
    rw [hfiles] at hpass
    cases outcome with
    | err e => cases hpass
    | panic => cases hpass
    | ok answered =>
      obtain ⟨q, allCommitted⟩ := answered
      simp only [uploadBatches_of_accepted hserved.uploads] at hpass
      cases hpass
      obtain ⟨σ₁, hrows⟩ := uploadFiles_leads hdigest h hcurrent hevicts rfl rfl
        (fun f hf ↦ isUploadable_of_pending hf) ((σ.registry c).nodup_updatedLocally (namespaceId c))
        hserved.serves hfiles
      obtain ⟨chunks, hq, hqueued⟩ := hrows.queued
      have hsent : (Client.Syncer.handedBatches env q.batches).flatten = chunks := by
        rw [Client.Syncer.handedBatches_of_accepted hserved.uploads, hq]
        exact (Client.UploadQueue.holds_empty.foldl chunks).flatten_batches
      have hinv := hrows.uploads.inv hdigest h
      have hcached : chunks.all (σ₁.isCached c) = true :=
        List.all_eq_true.mpr fun chunk hmem ↦ (hqueued chunk hmem).2.isCached hinv
      have hstep : next sha256 userId namespaceId σ₁ (.upload c chunks) =
          some { σ₁ with store := storeChunks σ₁.store chunks } := if_pos hcached
      have hok : IsCarefulUpload sha256 userId namespaceId bytesOf base c σ₁ (.upload c chunks) :=
        ⟨rfl, trivial⟩
      refine ⟨_, hrows.uploads.trans (System.leads_of_step hok hstep), hrows.state, hrows.journal, ?_⟩
      dsimp only
      rw [hrows.store, hsent]

end UploadSteps

end Fleet

end CooklangSync.System
