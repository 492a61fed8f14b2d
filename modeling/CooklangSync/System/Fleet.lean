import CooklangSync.Client.Once
import CooklangSync.System.InStep

/-!
# Fleet — the devices of one user, their files, and the server

Each device edits, indexes, commits and downloads in its own time.  What is on the disks is tied to
what the server has by one invariant: a registry is in step with some earlier version of the
journal, the one its cursor covers (`InStep`).  An index pass may then run at any time, and a
download as well; a commit keeps the devices in step when it comes from one that has seen all the
records of the others.

An upload is one step: the server has either all of its chunks or none, and keeps what it has.  What
an upload under way does to the files that the server holds its chunks in is the matter of
`ChunkStore` and `Requests`.
-/

namespace CooklangSync.System

open Theory

/-! ## 1. Runs -/

/-- The devices with the journal, and the chunks that the server stores. -/
structure Fleet (ι : Type) where
  peers : Peers ι
  store : Text → Option Bytes

/-- One thing that happens: what a client may do by itself, a commit of a row that is accepted or
answered with the chunks the server lacks, an upload of chunks out of the cache, a download pass,
a new start of the program, and what other users do. -/
inductive FleetAction (ι : Type) where
  | edit (c : ι) (disk : Client.Disk)
  | index (c : ι) (env : Client.ScanEnv) (order : Client.IterationOrder)
      (faults : Client.IndexFaults)
  | commit (c : ι) (f : Client.FileRecord) (reads : Client.Chunker.ReadEnv)
  | refuse (c : ι) (f : Client.FileRecord) (reads : Client.Chunker.ReadEnv)
  | upload (c : ι) (chunks : List Client.Chunk)
  | download (c : ι) (env : Client.Syncer.DownloadEnv) (response : List Client.ResponseFileRecord)
  | restart (c : ι) (evicts : Nat → Text → Bool)
  | foreign (userId : Int) (payload : Server.CommitPayload)
  | deposit (chunks : List Client.Chunk)

/-- The store after chunks have arrived, each replacing what was there under its id. -/
def storeChunks (store : Text → Option Bytes) (chunks : List Client.Chunk) : Text → Option Bytes :=
  chunks.foldl (fun store chunk ↦ Function.update store chunk.1 (some chunk.2)) store

namespace Fleet

section Runs

variable {ι : Type} [DecidableEq ι] (sha256 : Bytes → Text) (userId : Int) (namespaceId : ι → Int)

def journal (σ : Fleet ι) : Server.Journal := σ.peers.journal

def state (σ : Fleet ι) (c : ι) : Client.ClientState := (σ.peers.peer c).state

def registry (σ : Fleet ι) (c : ι) : Client.Registry := (σ.state c).registry

def disk (σ : Fleet ι) (c : ι) : Client.Disk := (σ.state c).disk

/-- The chunks the server has. -/
def stored (σ : Fleet ι) (id : Text) : Bool := (σ.store id).isSome

/-- The devices after a step that leaves the stored chunks. -/
def afterPeers (σ : Fleet ι) (a : PeerAction ι) : Option (Fleet ι) :=
  (σ.peers.next sha256 userId namespaceId a).map fun peers ↦ { σ with peers := peers }

def setChunker (σ : Fleet ι) (c : ι) (chunker : Client.Chunker) : Fleet ι :=
  let p := σ.peers.peer c
  { σ with peers := σ.peers.set c { p with state := { p.state with chunker := chunker } } }

/-- The chunk is in the cache of the device. -/
def isCached (σ : Fleet ι) (c : ι) (chunk : Client.Chunk) : Bool :=
  (σ.state c).chunker.cache.entries chunk.1 == some chunk.2

def next (σ : Fleet ι) : FleetAction ι → Option (Fleet ι)
  | .edit c disk => σ.afterPeers sha256 userId namespaceId (.edit c disk)
  | .index c env order faults => σ.afterPeers sha256 userId namespaceId (.index c env order faults)
  | .commit c f reads =>
    σ.afterPeers sha256 userId namespaceId (.commit c f reads (isStored σ.stored))
  | .refuse c f reads =>
    if σ.peers.isPending namespaceId c f then
      match Client.Syncer.hashFile sha256 reads (σ.state c) f with
      | (chunker, .ok chunkIds) =>
        match Server.commit (isStored σ.stored) σ.journal userId ⟨f.path, f.deleted, chunkIds⟩ with
        | .ok (.needChunks _, _) => some (σ.setChunker c chunker)
        | _ => none
      | _ => none
    else none
  | .upload c chunks =>
    if chunks.all (σ.isCached c) then some { σ with store := storeChunks σ.store chunks } else none
  | .download c env response =>
    σ.afterPeers sha256 userId namespaceId (.download c env response)
  | .restart c evicts =>
    some (σ.setChunker c (Client.Chunker.new (σ.state c).chunker.basePath evicts))
  | .foreign other payload =>
    σ.afterPeers sha256 userId namespaceId (.foreign other payload (isStored σ.stored))
  | .deposit chunks => some { σ with store := storeChunks σ.store chunks }

variable (bytesOf : Text → Bytes) (base : ι → Place Name)

/-- Nothing is stored, committed or cached yet. -/
def fresh (σ : Fleet ι) : Prop :=
  σ.peers.fresh ∧ σ.store = (fun _ ↦ none) ∧ ∀ c,
    (σ.state c).chunker.cache.entries = (fun _ ↦ none) ∧
      IsSoundDisk sha256 bytesOf (base c) (σ.disk c) (σ.state c).chunker.basePath

def system : System (Fleet ι) (FleetAction ι) where
  init := fresh sha256 bytesOf base
  step := next sha256 userId namespaceId

/-- The device has seen every record of the user. -/
def IsCurrent (σ : Fleet ι) (c : ι) : Prop :=
  (σ.registry c).latestJid (namespaceId c) = σ.journal.greatestId (·.userId == userId)

/-- Edits leave the storage directory in order and can be noticed, walks meet no error, the newest
rows are committed and only by a device that has seen all records, and what is stored and delivered
are chunks under their own ids. -/
def IsCareful (σ : Fleet ι) : FleetAction ι → Prop
  | .edit c disk =>
    IsSoundDisk sha256 bytesOf (base c) disk (σ.state c).chunker.basePath ∧
      IsNoticeable (σ.registry c) (namespaceId c) (base c) (σ.disk c) disk
  | .index c env _ _ => ∀ rel, env.unwalkable (rel ++ base c) = false
  | .commit c f _ =>
    IsCurrent userId namespaceId σ c ∧
      Watched.newest (σ.registry c) (namespaceId c) f.path = some f
  | .download _ env _ => Client.Syncer.DeliversStored σ.store env
  | .deposit chunks => ∀ chunk ∈ chunks, chunk.2 = bytesOf chunk.1
  | _ => True

end Runs

/-! ## 2. The invariant -/

/-- A device in step with a version of the journal, with nothing wrong in its cache. -/
structure IsDevice (sha256 : Bytes → Text) (bytesOf : Text → Bytes) (userId namespaceId : Int)
    (base : Place Name) (journal : Server.Journal) (s : Client.ClientState) : Prop where
  sound : IsSoundDisk sha256 bytesOf base s.disk s.chunker.basePath
  agrees : s.chunker.AgreesWith (Client.whole bytesOf)
  rows : HasSyncableRows s.registry namespaceId
  inStep : ∃ known, journal.Extends known ∧
    InStep bytesOf userId namespaceId base known s.registry s.disk

section Invariant

variable {ι : Type} [DecidableEq ι] {sha256 : Bytes → Text} {userId : Int} {namespaceId : ι → Int}
  {bytesOf : Text → Bytes} {base : ι → Place Name} {σ σ' : Fleet ι}

variable (sha256 userId namespaceId bytesOf base) in
structure Inv (σ : Fleet ι) : Prop where
  positive : ∀ r ∈ σ.journal.rows, 0 < r.id
  records : ∀ r ∈ σ.journal.rows, r.userId = userId → IsWellFormed sha256 bytesOf σ.store r
  chunks : ∀ id data, σ.store id = some data → data = bytesOf id
  device : ∀ c, IsDevice sha256 bytesOf userId (namespaceId c) (base c) σ.journal (σ.state c)

theorem IsDevice.extends {namespaceId : Int} {base : Place Name} {journal journal' : Server.Journal}
    {s : Client.ClientState}
    (h : IsDevice sha256 bytesOf userId namespaceId base journal s)
    (hextends : journal'.Extends journal) :
    IsDevice sha256 bytesOf userId namespaceId base journal' s := by
  obtain ⟨known, hknown, hstep⟩ := h.inStep
  exact ⟨h.sound, h.agrees, h.rows, known, hextends.trans hknown, hstep⟩

omit [DecidableEq ι] in
theorem Inv.init (h : fresh sha256 bytesOf base σ) :
    Inv sha256 userId namespaceId bytesOf base σ := by
  obtain ⟨⟨hjournal, hpeers⟩, hstore, hdevices⟩ := h
  have hrows : σ.journal.rows = [] := by
    rw [journal, hjournal]
    rfl
  refine ⟨fun r hr ↦ ?_, fun r hr ↦ ?_, fun id data hid ↦ ?_, fun c ↦ ?_⟩
  · rw [hrows] at hr
    cases hr
  · rw [hrows] at hr
    cases hr
  · rw [hstore] at hid
    cases hid
  · obtain ⟨hcache, hsound⟩ := hdevices c
    have hregistry : (σ.state c).registry = Table.empty := (hpeers c).1
    refine ⟨hsound, fun id data stored hid ↦ ?_, fun r hr ↦ ?_, σ.journal, .refl _, ?_, ?_, ?_⟩
    · rw [hcache] at hid
      cases hid
    · rw [hregistry] at hr
      cases hr
    · rw [hregistry, journal, hjournal]
      rfl
    · intro p r hr
      rw [hregistry] at hr
      cases hr
    · intro p record hrecord
      rw [journal, hjournal] at hrecord
      cases hrecord

/-! ## 3. Steps of one device -/

theorem state_set (peers : Peers ι) (store : Text → Option Bytes) (c : ι) (p : Peer) (e : ι) :
    Fleet.state ⟨peers.set c p, store⟩ e = if e = c then p.state else (peers.peer e).state := by
  rw [state]
  by_cases h : e = c
  · rw [if_pos h, h, Peers.peer_set_self]
  · rw [if_neg h, Peers.peer_set_of_ne peers h]

/-- The step of one device, while the journal and the store stay. -/
theorem Inv.set (h : Inv sha256 userId namespaceId bytesOf base σ) {c : ι} {p : Peer}
    (hdevice : IsDevice sha256 bytesOf userId (namespaceId c) (base c) σ.journal p.state) :
    Inv sha256 userId namespaceId bytesOf base { σ with peers := σ.peers.set c p } := by
  refine ⟨h.positive, h.records, h.chunks, fun e ↦ ?_⟩
  rw [state_set]
  by_cases he : e = c
  · rw [if_pos he, he]
    exact hdevice
  · rw [if_neg he]
    exact h.device e

/-! ## 4. The steps -/

omit [DecidableEq ι] in
theorem isPending_spec {peers : Peers ι} {c : ι} {f : Client.FileRecord}
    (h : peers.isPending namespaceId c f = true) :
    f ∈ (peers.registry c).rows ∧ f.jid = none ∧ f.namespaceId = namespaceId c := by
  simp only [Peers.isPending, Bool.and_eq_true, List.contains_iff_mem, Option.isNone_iff_eq_none,
    beq_iff_eq] at h
  exact ⟨h.1.1, h.1.2, h.2⟩

theorem afterPeers_eq {a : PeerAction ι}
    (h : σ.afterPeers sha256 userId namespaceId a = some σ') :
    ∃ peers, σ.peers.next sha256 userId namespaceId a = some peers ∧
      σ' = { σ with peers := peers } := by
  obtain ⟨peers, hnext, heq⟩ := Option.map_eq_some_iff.mp h
  exact ⟨peers, hnext, heq.symm⟩

section Steps

variable (h : Inv sha256 userId namespaceId bytesOf base σ) {c : ι}
include h

theorem Inv.edit {disk : Client.Disk}
    (hok : IsCareful sha256 userId namespaceId bytesOf base σ (.edit c disk))
    (hstep : next sha256 userId namespaceId σ (.edit c disk) = some σ') :
    Inv sha256 userId namespaceId bytesOf base σ' := by
  obtain ⟨peers, hpeers, rfl⟩ := afterPeers_eq hstep
  cases hpeers
  obtain ⟨hsound, hnoticed⟩ := hok
  obtain ⟨-, hagrees, hrows, known, hextends, hin⟩ := h.device c
  exact h.set ⟨hsound, hagrees, hrows, known, hextends, hin.edit hrows hnoticed⟩

theorem Inv.index {env : Client.ScanEnv} {order : Client.IterationOrder}
    {faults : Client.IndexFaults}
    (hok : IsCareful sha256 userId namespaceId bytesOf base σ (.index c env order faults))
    (hstep : next sha256 userId namespaceId σ (.index c env order faults) = some σ') :
    Inv sha256 userId namespaceId bytesOf base σ' := by
  obtain ⟨peers, hpeers, rfl⟩ := afterPeers_eq hstep
  cases hpeers
  obtain ⟨hsound, hagrees, hrows, known, hextends, hin⟩ := h.device c
  obtain ⟨added, hadded, hnone⟩ := Client.rows_checkIndexOnce (σ.state c).registry (σ.state c).disk
    env order faults (σ.state c).chunker.basePath (namespaceId c)
  exact h.set ⟨hsound, hagrees, Client.syncable_checkIndexOnce hsound.dir hok hrows, known,
    hextends, hin.append hadded hnone⟩

/-- The chunker may change in any way that keeps its base path and puts nothing wrong into the
cache. -/
theorem Inv.setChunker {chunker : Client.Chunker}
    (hbase : chunker.basePath = (σ.state c).chunker.basePath)
    (hagrees : chunker.AgreesWith (Client.whole bytesOf)) :
    Inv sha256 userId namespaceId bytesOf base (σ.setChunker c chunker) := by
  obtain ⟨hsound, -, hrows, hin⟩ := h.device c
  exact h.set ⟨show IsSoundDisk _ _ _ _ chunker.basePath from hbase ▸ hsound, hagrees, hrows, hin⟩

theorem Inv.restart {evicts : Nat → Text → Bool}
    (hstep : next sha256 userId namespaceId σ (.restart c evicts) = some σ') :
    Inv sha256 userId namespaceId bytesOf base σ' := by
  cases hstep
  exact h.setChunker rfl fun id data stored hid ↦ absurd hid (by simp [Client.Chunker.new])

omit [DecidableEq ι] in
/-- What is read for a row is a file that resolves. -/
theorem Inv.resolves_of_row {f : Client.FileRecord} (hf : f ∈ (σ.registry c).rows)
    (hns : f.namespaceId = namespaceId c) {file : Client.FileData}
    (hfile : (σ.disk c).readFile ((σ.state c).chunker.fullPath f.path) = some file) :
    Client.fileOf (σ.disk c) (base c) f.path = some file ∧
      Client.Resolves sha256 bytesOf f.path file.content := by
  obtain ⟨hsound, -, hrows, -⟩ := h.device c
  have hp := hrows f hf hns
  have hread := hsound.dir.readFile_eq (σ.state c).chunker rfl hp
  have hsome := hread.symm.trans hfile
  exact ⟨hsome, hsound.resolves f.path file hp hsome⟩

omit [DecidableEq ι] in
theorem Inv.agreesWith_hashFile {f : Client.FileRecord} (hf : f ∈ (σ.registry c).rows)
    (hns : f.namespaceId = namespaceId c) (reads : Client.Chunker.ReadEnv) :
    (Client.Syncer.hashFile sha256 reads (σ.state c) f).1.AgreesWith (Client.whole bytesOf) :=
  Client.agreesWith_hashFile (h.device c).agrees
    (fun _ hfile ↦ (h.resolves_of_row hf hns hfile).2) reads

theorem Inv.refuse {f : Client.FileRecord} {reads : Client.Chunker.ReadEnv}
    (hstep : next sha256 userId namespaceId σ (.refuse c f reads) = some σ') :
    Inv sha256 userId namespaceId bytesOf base σ' := by
  rw [next] at hstep
  split at hstep
  · rename_i hpending
    obtain ⟨hf, -, hns⟩ := isPending_spec hpending
    have hagrees := h.agreesWith_hashFile hf hns reads
    split at hstep
    · rename_i chunker chunkIds hhash
      rw [hhash] at hagrees
      split at hstep
      · cases hstep
        exact h.setChunker (Client.Syncer.hashFile_ok hhash).1 hagrees
      · cases hstep
    · cases hstep
  · cases hstep

omit h [DecidableEq ι] in
theorem storeChunks_cons (store : Text → Option Bytes) (chunk : Client.Chunk)
    (chunks : List Client.Chunk) : storeChunks store (chunk :: chunks) =
      storeChunks (Function.update store chunk.1 (some chunk.2)) chunks := rfl

omit h [DecidableEq ι] in
theorem isSome_storeChunks {store : Text → Option Bytes} (chunks : List Client.Chunk) {id : Text}
    (hid : (store id).isSome) : (storeChunks store chunks id).isSome := by
  induction chunks generalizing store with
  | nil => exact hid
  | cons chunk chunks ih =>
    rw [storeChunks_cons]
    apply ih
    by_cases heq : id = chunk.1
    · rw [heq, Function.update_self]
      rfl
    · rwa [Function.update_of_ne heq]

omit h [DecidableEq ι] in
theorem storeChunks_eq_some {store : Text → Option Bytes} {chunks : List Client.Chunk} {id : Text}
    {data : Bytes} (h : storeChunks store chunks id = some data) :
    store id = some data ∨ (id, data) ∈ chunks := by
  induction chunks generalizing store with
  | nil => exact .inl h
  | cons chunk chunks ih =>
    rw [storeChunks_cons] at h
    rcases ih h with hold | hmem
    · by_cases heq : id = chunk.1
      · rw [heq, Function.update_self] at hold
        rw [heq, ← Option.some.inj hold]
        exact .inr List.mem_cons_self
      · rw [Function.update_of_ne heq] at hold
        exact .inl hold
    · exact .inr (List.mem_cons_of_mem _ hmem)

omit [DecidableEq ι] in
/-- Chunks under their own ids may be stored at any time. -/
theorem Inv.storeChunks {chunks : List Client.Chunk}
    (hchunks : ∀ chunk ∈ chunks, chunk.2 = bytesOf chunk.1) :
    Inv sha256 userId namespaceId bytesOf base
      { σ with store := System.storeChunks σ.store chunks } := by
  refine ⟨h.positive, fun r hr huser ↦ ?_, fun id data hid ↦ ?_, h.device⟩
  · exact (h.records r hr huser).mono fun id hid ↦ isSome_storeChunks chunks hid
  · rcases storeChunks_eq_some hid with hold | hmem
    · exact h.chunks id data hold
    · exact hchunks _ hmem

theorem Inv.upload {chunks : List Client.Chunk}
    (hstep : next sha256 userId namespaceId σ (.upload c chunks) = some σ') :
    Inv sha256 userId namespaceId bytesOf base σ' := by
  rw [next] at hstep
  split at hstep
  · rename_i hcached
    cases hstep
    rw [List.all_eq_true] at hcached
    refine h.storeChunks fun chunk hmem ↦ ?_
    have hentry := hcached chunk hmem
    rw [isCached, beq_iff_eq] at hentry
    exact (h.device c).agrees chunk.1 chunk.2 _ hentry rfl
  · cases hstep

omit [DecidableEq ι] in
/-- The journal grows, by records that are well formed or not the user's. -/
theorem Inv.grow {journal' : Server.Journal} (hextends : journal'.Extends σ.journal)
    (hrows : ∀ r ∈ journal'.rows, r ∈ σ.journal.rows ∨
      0 < r.id ∧ (r.userId = userId → IsWellFormed sha256 bytesOf σ.store r)) :
    Inv sha256 userId namespaceId bytesOf base
      { σ with peers := { σ.peers with journal := journal' } } := by
  refine ⟨fun r hr ↦ ?_, fun r hr huser ↦ ?_, h.chunks, fun e ↦ (h.device e).extends hextends⟩
  · exact (hrows r hr).elim (h.positive r) And.left
  · exact (hrows r hr).elim (fun hold ↦ h.records r hold huser) fun hnew ↦ hnew.2 huser

omit h [DecidableEq ι] in
theorem extends_of_grows {journal journal' : Server.Journal} {record : Server.NewFileRecord}
    (h : journal' = journal ∨ journal' = (Server.insertNewRecord journal record).2) :
    journal'.Extends journal := by
  rcases h with rfl | rfl
  · exact .refl _
  · exact Table.extends_insert journal _ record.id_withId

omit [DecidableEq ι] in
theorem Inv.mem_of_grows {journal' : Server.Journal} {record : Server.NewFileRecord}
    (hgrows : journal' = σ.journal ∨ journal' = (Server.insertNewRecord σ.journal record).2)
    {r : Server.FileRecord} (hr : r ∈ journal'.rows) :
    r ∈ σ.journal.rows ∨ 0 < r.id ∧ r = record.withId r.id := by
  rcases hgrows with rfl | rfl
  · exact .inl hr
  · rw [Server.insertNewRecord, Table.rows_insert, List.mem_append, List.mem_singleton] at hr
    rcases hr with hr | rfl
    · exact .inl hr
    · exact .inr ⟨σ.journal.nextId_pos h.positive, rfl⟩

theorem Inv.foreign {other : Int} {payload : Server.CommitPayload}
    (hstep : next sha256 userId namespaceId σ (.foreign other payload) = some σ') :
    Inv sha256 userId namespaceId bytesOf base σ' := by
  obtain ⟨peers, hpeers, rfl⟩ := afterPeers_eq hstep
  rw [Peers.next] at hpeers
  split at hpeers
  · cases hpeers
  · rename_i hother
    split at hpeers
    · rename_i status journal' hcommit
      cases hpeers
      have hgrows := Server.commit_journal _ hcommit
      refine h.grow (extends_of_grows hgrows) fun r hr ↦ ?_
      refine (h.mem_of_grows hgrows hr).imp_right fun hnew ↦ ⟨hnew.1, fun huser ↦ ?_⟩
      rw [hnew.2] at huser
      exact absurd huser hother
    · cases hpeers

/-- What a download pass has done. -/
theorem Inv.isDownloaded {env : Client.Syncer.DownloadEnv}
    {response : List Client.ResponseFileRecord}
    (hok : IsCareful sha256 userId namespaceId bytesOf base σ (.download c env response))
    (hstep : next sha256 userId namespaceId σ (.download c env response) = some σ') :
    ∃ p : Peer, σ' = { σ with peers := σ.peers.set c p } ∧
      IsDownloaded bytesOf userId (namespaceId c) (base c) σ.journal
        (Client.Syncer.latestLocal env (σ.state c) (namespaceId c)) response (σ.state c) p.state := by
  obtain ⟨peers, hpeers, rfl⟩ := afterPeers_eq hstep
  obtain ⟨hlists, s', changed, hpass, rfl⟩ := Peers.next_download hpeers
  obtain ⟨hsound, hagrees, -, -⟩ := h.device c
  refine ⟨_, rfl, isDownloaded_of_pass hsound hagrees
    (fun r hr huser ↦ (h.records r hr huser).syncable) ?_ hlists hpass⟩
  intro ids chunk hchunk
  rw [Client.whole, ← h.chunks chunk.1 chunk.2 (hok ids chunk hchunk)]

omit [DecidableEq ι] in
/-- A pass brings the device into step with the whole journal. -/
theorem Inv.inStep_download {env : Client.Syncer.DownloadEnv}
    {response : List Client.ResponseFileRecord} {s' : Client.ClientState}
    (hdown : IsDownloaded bytesOf userId (namespaceId c) (base c) σ.journal
      (Client.Syncer.latestLocal env (σ.state c) (namespaceId c)) response (σ.state c) s') :
    InStep bytesOf userId (namespaceId c) (base c) σ.journal s'.registry s'.disk := by
  obtain ⟨-, -, hrows, known, hextends, hin⟩ := h.device c
  exact hin.download hdown (fun r hr huser ↦ (h.records r hr huser).syncable) hrows hextends
    h.positive (latestLocal_le hin fun r hr ↦ h.positive r (hextends.mem hr))

theorem Inv.download (hdigest : Client.IsHexDigest sha256) {env : Client.Syncer.DownloadEnv}
    {response : List Client.ResponseFileRecord}
    (hok : IsCareful sha256 userId namespaceId bytesOf base σ (.download c env response))
    (hstep : next sha256 userId namespaceId σ (.download c env response) = some σ') :
    Inv sha256 userId namespaceId bytesOf base σ' := by
  obtain ⟨p, rfl, hdown⟩ := h.isDownloaded hok hstep
  obtain ⟨hsound, -, hrows, -⟩ := h.device c
  have hsyncable : ∀ r ∈ σ.journal.rows, r.userId = userId →
      Client.isSyncablePath r.path = true := fun r hr huser ↦ (h.records r hr huser).syncable
  refine h.set ⟨hsound.download hdown hsyncable hdigest h.records, hdown.effects.agrees, ?_,
    σ.journal, .refl _, h.inStep_download hdown⟩
  intro r hr hns
  rcases hdown.written.rows r hr with hold | hnew
  · exact hrows r hold hns
  · obtain ⟨d, hd, heq⟩ := List.mem_map.mp hnew
    rw [← heq]
    exact hdown.syncable_listed hsyncable hd

omit [DecidableEq ι] in
/-- The record of an accepted commit is well formed: its chunks are there, and are those of the
file. -/
theorem Inv.isWellFormed_of_commit {f : Client.FileRecord} (hp : Client.isSyncablePath f.path = true)
    {reads : Client.Chunker.ReadEnv} {chunker : Client.Chunker} {chunkIds : Text}
    (hhash : Client.Syncer.hashFile sha256 reads (σ.state c) f = (chunker, .ok chunkIds))
    {jid : Int} {journal' : Server.Journal}
    (hcommit : Server.commit (isStored σ.stored) σ.journal userId ⟨f.path, f.deleted, chunkIds⟩ =
      .ok (.success jid, journal')) (id : Int) :
    IsWellFormed sha256 bytesOf σ.store ⟨id, userId, chunkIds, f.deleted, f.path⟩ := by
  refine ⟨hp, fun _ id hid hne ↦ ?_, fun hlive ↦ ?_⟩
  · have hpresent := Server.isPresent_of_commit _ hcommit hid
    rw [isStored, decide_eq_false hne, Bool.false_or] at hpresent
    exact Outcome.ok.inj hpresent
  · obtain ⟨file, -, hresolves, hids⟩ := file_of_hashFile (h.device c).sound hp hhash hlive
    exact ⟨reads, file.content, hresolves, hids⟩

/-- What an accepted commit has done: the row was hashed, the server has a record of it under the
jid, and the row carries the jid. -/
structure IsCommitted (sha256 : Bytes → Text) (userId namespaceId : Int) (σ : Fleet ι) (c : ι)
    (f : Client.FileRecord) (reads : Client.Chunker.ReadEnv) (chunker : Client.Chunker)
    (chunkIds : Text) (jid : Int) (journal' : Server.Journal) : Prop where
  row : f ∈ (σ.registry c).rows ∧ f.jid = none ∧ f.namespaceId = namespaceId
  hash : Client.Syncer.hashFile sha256 reads (σ.state c) f = (chunker, .ok chunkIds)
  accepted : Server.commit (isStored σ.stored) σ.journal userId ⟨f.path, f.deleted, chunkIds⟩ =
    .ok (.success jid, journal')

omit h in
theorem next_commit {f : Client.FileRecord} {reads : Client.Chunker.ReadEnv}
    (hstep : next sha256 userId namespaceId σ (.commit c f reads) = some σ') :
    ∃ (p : Peer) (chunker : Client.Chunker) (chunkIds : Text) (jid : Int)
      (journal' : Server.Journal),
      IsCommitted sha256 userId (namespaceId c) σ c f reads chunker chunkIds jid journal' ∧
      p.state = ⟨(σ.registry c).updateJid f jid, chunker, σ.disk c⟩ ∧
      σ' = ⟨Peers.set { σ.peers with journal := journal' } c p, σ.store⟩ := by
  obtain ⟨peers, hpeers, rfl⟩ := afterPeers_eq hstep
  have hpending : σ.peers.isPending namespaceId c f = true := by
    by_contra hno
    rw [Peers.next, if_neg hno] at hpeers
    cases hpeers
  obtain ⟨chunker, chunkIds, jid, journal', hhash, hcommit, rfl⟩ := Peers.next_commit hpeers
  exact ⟨_, chunker, chunkIds, jid, journal', ⟨isPending_spec hpending, hhash, hcommit⟩, rfl, rfl⟩

omit [DecidableEq ι] in
/-- A device that has seen the whole journal is in step with it after its commit. -/
theorem Inv.inStep_commit (hdigest : Client.IsHexDigest sha256) {f : Client.FileRecord}
    {reads : Client.Chunker.ReadEnv} {chunker : Client.Chunker} {chunkIds : Text} {jid : Int}
    {journal' : Server.Journal}
    (hok : IsCareful sha256 userId namespaceId bytesOf base σ (.commit c f reads))
    (hcommit : IsCommitted sha256 userId (namespaceId c) σ c f reads chunker chunkIds jid journal') :
    InStep bytesOf userId (namespaceId c) (base c) σ.journal (σ.registry c) (σ.disk c) ∧
      InStep bytesOf userId (namespaceId c) (base c) journal' ((σ.registry c).updateJid f jid)
        (σ.disk c) := by
  obtain ⟨hcurrent, hnewest⟩ := hok
  obtain ⟨⟨hf, hnone, hns⟩, hhash, haccepted⟩ := hcommit
  obtain ⟨hsound, -, hrows, known, hextends, hin⟩ := h.device c
  have hin := hin.of_current hextends h.positive hcurrent
  refine ⟨hin, hin.commit hnewest hnone (Server.commit_success _ haccepted)
    fun hlive data hdata ↦ ?_⟩
  obtain ⟨file, hfile, hresolves, rfl⟩ := file_of_hashFile hsound (hrows f hf hns) hhash hlive
  rw [hresolves.contentOf_chunkIds hdigest, Option.some.inj (hdata.symm.trans hfile)]

theorem Inv.commit (hdigest : Client.IsHexDigest sha256) {f : Client.FileRecord}
    {reads : Client.Chunker.ReadEnv}
    (hok : IsCareful sha256 userId namespaceId bytesOf base σ (.commit c f reads))
    (hstep : next sha256 userId namespaceId σ (.commit c f reads) = some σ') :
    Inv sha256 userId namespaceId bytesOf base σ' := by
  obtain ⟨p, chunker, chunkIds, jid, journal', hcommit, hp, rfl⟩ := next_commit hstep
  obtain ⟨-, hin⟩ := h.inStep_commit hdigest hok hcommit
  obtain ⟨⟨hf, hnone, hns⟩, hhash, haccepted⟩ := hcommit
  obtain ⟨hsound, -, hrows, -⟩ := h.device c
  have hgrows := Server.commit_journal _ haccepted
  have hformed := fun id ↦ h.isWellFormed_of_commit (hrows f hf hns) hhash haccepted id
  have hgrown := h.grow (extends_of_grows hgrows) fun r hr ↦ by
    refine (h.mem_of_grows hgrows hr).imp_right fun hnew ↦ ⟨hnew.1, fun _ ↦ ?_⟩
    rw [hnew.2]
    exact hformed r.id
  have hbase := (Client.Syncer.hashFile_ok hhash).1
  have hagrees := h.agreesWith_hashFile hf hns reads
  rw [hhash] at hagrees
  refine hgrown.set (hp ▸ ⟨show IsSoundDisk _ _ _ _ chunker.basePath from hbase ▸ hsound, hagrees, ?_,
    journal', .refl _, hin⟩)
  intro r hr hrns
  obtain ⟨old, hold, rfl⟩ := List.mem_map.mp hr
  rw [Watched.setJid_eq] at hrns ⊢
  exact hrows old hold hrns

end Steps

/-! ## 5. All steps -/

theorem Inv.next (hdigest : Client.IsHexDigest sha256)
    (h : Inv sha256 userId namespaceId bytesOf base σ) {a : FleetAction ι}
    (hok : IsCareful sha256 userId namespaceId bytesOf base σ a)
    (hstep : next sha256 userId namespaceId σ a = some σ') :
    Inv sha256 userId namespaceId bytesOf base σ' := by
  cases a with
  | edit c disk => exact h.edit hok hstep
  | index c env order faults => exact h.index hok hstep
  | commit c f reads => exact h.commit hdigest hok hstep
  | refuse c f reads => exact h.refuse hstep
  | upload c chunks => exact h.upload hstep
  | download c env response => exact h.download hdigest hok hstep
  | restart c evicts => exact h.restart hstep
  | foreign other payload => exact h.foreign hstep
  | deposit chunks =>
    cases hstep
    exact h.storeChunks hok

/-- Every reachable state of careful devices keeps the invariant. -/
theorem Inv.reachable (hdigest : Client.IsHexDigest sha256)
    (h : (system sha256 userId namespaceId bytesOf base).Reachable
      (IsCareful sha256 userId namespaceId bytesOf base) σ) :
    Inv sha256 userId namespaceId bytesOf base σ :=
  h.invariant (fun _ hinit ↦ .init hinit) fun _ _ _ hinv hok hstep ↦ hinv.next hdigest hok hstep

end Invariant

end Fleet

end CooklangSync.System
