import CooklangSync.Client.Fetch
import CooklangSync.Client.Upload
import CooklangSync.Server.Metadata
import CooklangSync.System.Peers

/-!
# Loops — the download, upload and index loops of one client

The loops share the registry, and the chunker behind a lock that is taken for one file at a time.
An upload pass works through rows it has read before, and a download pass through a response it has
asked for before, so that a step of one may find the registry changed by the other.
-/

namespace CooklangSync.System

open Theory

/-! ## 1. Runs -/

/-- An upload pass under way: the commit whose answer is on its way, and the rows that are left.
The lock is held while an answer is awaited. -/
structure UploadPass where
  waiting : Option (Client.FileRecord × Server.CommitResultStatus)
  rest : List Client.FileRecord

/-- A download pass under way: it has asked for the records past a cursor, or has the records that
are left. -/
inductive DownloadPass where
  | asking (cursor : Int)
  | applying (rest : List Client.ResponseFileRecord)

/-- One client and the server.  `handled` are the records that the client has committed or carried
out, by their paths: a commit counts from when the server has recorded it, whether or not its answer
arrives, and a record from the first of its two effects. -/
structure Loops where
  journal : Server.Journal
  client : Client.ClientState
  upload : Option UploadPass
  download : Option DownloadPass
  handled : List (Text × Int)

/-- What a commit that the server has answered so adds to the records that are handled. -/
def committed (p : Text) : Server.CommitResultStatus → List (Text × Int)
  | .success jid => [(p, jid)]
  | .needChunks _ => []

/-- The first of the two effects of a record is there: the row of a deleted one, the file of a live
one. -/
def isBegun (env : Client.Syncer.RecordEnv) (s : Client.ClientState)
    (d : Client.ResponseFileRecord) : Bool :=
  if d.deleted then !env.registryFails
  else (s.chunker.save s.disk env.save d.path (Client.Syncer.chunksOf d)).1 = .ok ()

theorem mem_handled_append (handled : List (Text × Int)) (q : Text) (j : Int) (p : Text) (i : Int) :
    (p, i) ∈ handled ++ [(q, j)] ↔ (p, i) ∈ handled ∨ p = q ∧ i = j := by
  rw [List.mem_append, List.mem_singleton, Prod.mk.injEq]

/-- What happens between two await points.  A pass may end at any of them, with an error; `cache` is
what the other steps of the passes do, which only fill the chunk cache; `foreign` is a commit of
another client, of this or of another user. -/
inductive LoopAction where
  | edit (disk : Client.Disk)
  | cache (chunker : Client.Chunker)
  | index (env : Client.ScanEnv) (order : Client.IterationOrder) (faults : Client.IndexFaults)
  | startUpload
  | sendCommit (reads : Client.Chunker.ReadEnv) (isPresent : Text → Outcome Unit Bool)
  | receiveAnswer
  | endUpload
  | startDownload (latestJidFails : Bool)
  | receiveList (response : List Client.ResponseFileRecord)
  | applyNext (env : Client.Syncer.RecordEnv)
  | endDownload
  | foreign (userId : Int) (payload : Server.CommitPayload) (isPresent : Text → Outcome Unit Bool)

namespace Loops

section Runs

variable (sha256 : Bytes → Text) (userId namespaceId : Int)

def isLocked (σ : Loops) : Bool :=
  match σ.upload with
  | some pass => pass.waiting.isSome
  | none => false

def next (σ : Loops) : LoopAction → Option Loops
  | .edit disk => some { σ with client := { σ.client with disk := disk } }
  | .cache chunker => some { σ with client := { σ.client with chunker := chunker } }
  | .index env order faults =>
    let r := Client.checkIndexOnce σ.client.registry σ.client.disk env order faults
      σ.client.chunker.basePath namespaceId
    some { σ with client := { σ.client with registry := r.1 } }
  | .startUpload =>
    match σ.upload with
    | some _ => none
    | none =>
      some { σ with upload := some ⟨none, σ.client.registry.updatedLocally namespaceId⟩ }
  | .sendCommit reads isPresent =>
    -- the file of the row is chunked anew, and the server answers at once
    match σ.upload with
    | some ⟨none, f :: rest⟩ =>
      match Client.Syncer.hashFile sha256 reads σ.client f with
      | (chunker, .ok chunkIds) =>
        match Server.commit isPresent σ.journal userId ⟨f.path, f.deleted, chunkIds⟩ with
        | .ok (status, journal) =>
          some { σ with
            journal := journal
            client := { σ.client with chunker := chunker }
            upload := some ⟨some (f, status), rest⟩
            handled := σ.handled ++ committed f.path status }
        | _ => none
      | _ => none
    | _ => none
  | .receiveAnswer =>
    match σ.upload with
    | some ⟨some (f, .success jid), rest⟩ =>
      some { σ with
        client := { σ.client with registry := σ.client.registry.updateJid f jid }
        upload := some ⟨none, rest⟩ }
    | some ⟨some (_, .needChunks _), rest⟩ => some { σ with upload := some ⟨none, rest⟩ }
    | _ => none
  | .endUpload => some { σ with upload := none }
  | .startDownload latestJidFails =>
    match σ.download with
    | some _ => none
    | none =>
      -- a failed lookup counts as no record at all
      let cursor := if latestJidFails then 0 else (σ.client.registry.latestJid namespaceId).getD 0
      some { σ with download := some (.asking cursor) }
  | .receiveList response =>
    -- the server lists in any order
    match σ.download with
    | some (.asking cursor) =>
      if response.isPerm ((Server.list σ.journal userId cursor).map respond) then
        some { σ with download := some (.applying response) }
      else none
    | _ => none
  | .applyNext env =>
    match σ.download with
    | some (.applying (d :: rest)) =>
      -- the lock of the chunker is held while an answer is awaited
      if σ.isLocked then none
      else
        let r := Client.Syncer.applyRecord env namespaceId σ.client d
        some { σ with
          client := r.1
          download := if r.2 = .ok () then some (.applying rest) else none
          handled := if isBegun env σ.client d then σ.handled ++ [(d.path, d.id)] else σ.handled }
    | _ => none
  | .endDownload => some { σ with download := none }
  | .foreign other payload isPresent =>
    match Server.commit isPresent σ.journal other payload with
    | .ok (_, journal) => some { σ with journal := journal }
    | _ => none

/-- Everything is empty, and no pass is under way. -/
def fresh (σ : Loops) : Prop :=
  σ.journal = Table.empty ∧ σ.client.registry = Table.empty ∧ σ.upload = none ∧
    σ.download = none ∧ σ.handled = []

def system : System Loops LoopAction where
  init := fresh
  step := next sha256 userId namespaceId

/-! ## 2. The order of the rows of a path -/

/-- The row says that the record with the id `j` of its path is known. -/
def Carries (namespaceId : Int) (p : Text) (r : Client.FileRecord) (j : Int) : Prop :=
  r.namespaceId = namespaceId ∧ r.path = p ∧ r.jid = some j

/-- Of two rows of a path that carry jids, the newer one does not carry the smaller. -/
def IsOrdered (registry : Client.Registry) : Prop :=
  ∀ r ∈ registry.rows, ∀ s ∈ registry.rows, ∀ p i j, Carries namespaceId p r i →
    Carries namespaceId p s j → r.id < s.id → i ≤ j

/-- The server has recorded a commit of the path under the id, and its answer is on its way. -/
def Awaits (σ : Loops) (p : Text) (i : Int) : Prop :=
  ∃ f rest, σ.upload = some ⟨some (f, .success i), rest⟩ ∧ f.path = p

/-- The newest row of a path that carries a jid describes the greatest record that was handled, but
for one whose answer is on its way. -/
def IsDescribed (σ : Loops) : Prop :=
  ∀ p r, σ.client.registry.lastOf
      (fun r ↦ r.namespaceId == namespaceId && r.path == p && r.jid.isSome) = some r →
    ∃ j, r.jid = some j ∧ (p, j) ∈ σ.handled ∧ ∀ i, (p, i) ∈ σ.handled → i ≤ j ∨ σ.Awaits p i

/-- Where the rows of the path carry jids, one is not smaller. -/
def Reaches (registry : Client.Registry) (p : Text) (i : Int) : Prop :=
  ∀ r ∈ registry.rows, ∀ j, Carries namespaceId p r j →
    ∃ s ∈ registry.rows, ∃ k, Carries namespaceId p s k ∧ i ≤ k

/-- A row is committed only while no newer row of its path carries a jid, unless the server answers
with the record that this newer row carries, and the answer is lost only where the rows of the path
have reached it or carry no jid.  A record is carried out only while none of its path with a greater
id was handled, and what follows the writing of its file fails only where the rows of the path have
reached it or carry no jid. -/
def InOrder (σ : Loops) : LoopAction → Prop
  | .sendCommit reads isPresent =>
    ∀ f rest, σ.upload = some ⟨none, f :: rest⟩ →
    ∀ chunkIds, (Client.Syncer.hashFile sha256 reads σ.client f).2 = .ok chunkIds →
      Server.CommitPayload.nonLocalChunks isPresent ⟨f.path, f.deleted, chunkIds⟩ = .ok [] →
    ∀ r ∈ σ.client.registry.rows, ∀ j, Carries namespaceId f.path r j → f.id < r.id →
      ∃ existing, Server.latestForPath σ.journal userId f.path = some existing ∧
        Server.isNoOp existing ⟨userId, chunkIds, f.deleted, f.path⟩ = true ∧ existing.id = j
  | .endUpload => ∀ p i, σ.Awaits p i → Reaches namespaceId σ.client.registry p i
  | .applyNext env =>
    ∀ d rest, σ.download = some (.applying (d :: rest)) →
      (∀ i, (d.path, i) ∈ σ.handled → i ≤ d.id) ∧
      (d.deleted = false → env.metadataFails = true ∨ env.registryFails = true →
        Reaches namespaceId σ.client.registry d.path d.id)
  | _ => True

end Runs

/-! ## 3. The invariant -/

/-- The row is in the registry and carries no jid. -/
def IsPending (registry : Client.Registry) (namespaceId : Int) (f : Client.FileRecord) : Prop :=
  ∃ row ∈ registry.rows, row.id = f.id ∧ row.path = f.path ∧ row.namespaceId = namespaceId ∧
    row.jid = none

def IsKnown (journal : Server.Journal) (userId : Int) (p : Text) (j : Int) : Prop :=
  ∃ r ∈ journal.rows, r.userId = userId ∧ r.path = p ∧ r.id = j

/-- The rows that the pass has still to commit or to set a jid of. -/
def UploadPass.pending (pass : UploadPass) : List Client.FileRecord :=
  (pass.waiting.map Prod.fst).toList ++ pass.rest

/-- Setting the jid of the row keeps the order. -/
def Fits (registry : Client.Registry) (namespaceId : Int) (f : Client.FileRecord) (jid : Int) :
    Prop :=
  ∀ row ∈ registry.rows, ∀ j, Carries namespaceId f.path row j →
    (f.id < row.id → jid ≤ j) ∧ (row.id < f.id → j ≤ jid)

/-- A row of the path carries the greatest record that was handled, but for one whose answer is on
its way. -/
def Covers (namespaceId : Int) (σ : Loops) (p : Text) : Prop :=
  ∃ s ∈ σ.client.registry.rows, ∃ k, Carries namespaceId p s k ∧
    ∀ i, (p, i) ∈ σ.handled → i ≤ k ∨ σ.Awaits p i

structure Inv (userId namespaceId : Int) (σ : Loops) : Prop where
  known : ∀ p j, (p, j) ∈ σ.handled → IsKnown σ.journal userId p j
  handled : ∀ row ∈ σ.client.registry.rows, ∀ p j, Carries namespaceId p row j → (p, j) ∈ σ.handled
  ordered : IsOrdered namespaceId σ.client.registry
  covered : ∀ row ∈ σ.client.registry.rows, ∀ p j, Carries namespaceId p row j →
    Covers namespaceId σ p
  pending : ∀ pass, σ.upload = some pass →
    (∀ f ∈ UploadPass.pending pass, IsPending σ.client.registry namespaceId f) ∧
      ((UploadPass.pending pass).map Client.FileRecord.id).Nodup
  answer : ∀ f jid rest, σ.upload = some ⟨some (f, .success jid), rest⟩ →
    (f.path, jid) ∈ σ.handled ∧ (∀ i, (f.path, i) ∈ σ.handled → i ≤ jid) ∧
      Fits σ.client.registry namespaceId f jid
  listed : ∀ rest, σ.download = some (.applying rest) → ∀ d ∈ rest,
    IsKnown σ.journal userId d.path d.id

section Invariant

variable {sha256 : Bytes → Text} {userId namespaceId : Int} {σ : Loops}

theorem Inv.init (h : σ.fresh) : Inv userId namespaceId σ := by
  obtain ⟨-, hregistry, hupload, hdownload, hhandled⟩ := h
  have hrows : σ.client.registry.rows = [] := by rw [hregistry]; rfl
  refine ⟨by simp [hhandled], by simp [hrows], by simp [IsOrdered, hrows], by simp [hrows],
    ?_, ?_, ?_⟩
  · rw [hupload]
    exact fun _ h ↦ by cases h
  · rw [hupload]
    exact fun _ _ _ h ↦ by cases h
  · rw [hdownload]
    exact fun _ h ↦ by cases h

/-- Rows that carry a jid go on to, and what is handled besides waits for its answer. -/
theorem Covers.mono {τ : Loops} {p : Text} (h : Covers namespaceId σ p)
    (hrows : ∀ s ∈ σ.client.registry.rows, ∀ k, Carries namespaceId p s k →
      ∃ t ∈ τ.client.registry.rows, Carries namespaceId p t k)
    (hhandled : ∀ i, (p, i) ∈ τ.handled → (p, i) ∈ σ.handled ∨ τ.Awaits p i)
    (hawaits : ∀ i, σ.Awaits p i → τ.Awaits p i) : Covers namespaceId τ p := by
  obtain ⟨s, hs, k, hk, hgreatest⟩ := h
  obtain ⟨t, ht, htk⟩ := hrows s hs k hk
  refine ⟨t, ht, k, htk, fun i hi ↦ ?_⟩
  rcases hhandled i hi with hi | hi
  · exact (hgreatest i hi).imp_right (hawaits i)
  · exact .inr hi

theorem IsKnown.grown {journal journal' : Server.Journal} (h : Peers.Grown journal journal')
    {p : Text} {j : Int} (hknown : IsKnown journal userId p j) : IsKnown journal' userId p j := by
  obtain ⟨r, hr, hrest⟩ := hknown
  exact ⟨r, h.rows.1 r hr, hrest⟩

theorem Inv.grown (h : Inv userId namespaceId σ) {journal : Server.Journal}
    (hgrown : Peers.Grown σ.journal journal) :
    Inv userId namespaceId { σ with journal := journal } where
  known := fun p j hj ↦ (h.known p j hj).grown hgrown
  handled := h.handled
  ordered := h.ordered
  covered := h.covered
  pending := h.pending
  answer := h.answer
  listed := fun rest hrest d hd ↦ (h.listed rest hrest d hd).grown hgrown

/-- The invariant looks only at the registry of the client. -/
theorem Inv.of_registry (h : Inv userId namespaceId σ) {client : Client.ClientState}
    (hreg : client.registry = σ.client.registry) :
    Inv userId namespaceId { σ with client := client } where
  known := h.known
  handled := by
    rw [hreg]
    exact h.handled
  ordered := by
    rw [hreg]
    exact h.ordered
  covered := by
    unfold Covers
    rw [hreg]
    exact h.covered
  pending := by
    rw [hreg]
    exact h.pending
  answer := by
    rw [hreg]
    exact h.answer
  listed := h.listed

/-! ## 4. Index passes -/

theorem carries_append {rows added : List Client.FileRecord}
    (hnone : ∀ row ∈ added, row.jid = none) {row : Client.FileRecord} (hrow : row ∈ rows ++ added)
    {p : Text} {j : Int} (h : Carries namespaceId p row j) : row ∈ rows := by
  rcases List.mem_append.mp hrow with hrow | hrow
  · exact hrow
  · have hjid := h.2.2
    rw [hnone row hrow] at hjid
    cases hjid

/-- Rows without jids change nothing. -/
theorem Inv.append (h : Inv userId namespaceId σ) {registry : Client.Registry}
    {added : List Client.FileRecord} (hrows : registry.rows = σ.client.registry.rows ++ added)
    (hnone : ∀ row ∈ added, row.jid = none) :
    Inv userId namespaceId { σ with client := { σ.client with registry := registry } } := by
  have hold : ∀ row ∈ registry.rows, ∀ p j, Carries namespaceId p row j →
      row ∈ σ.client.registry.rows := by
    intro row hrow p j hj
    rw [hrows] at hrow
    exact carries_append hnone hrow hj
  have hkeep : ∀ row ∈ σ.client.registry.rows, row ∈ registry.rows := by
    intro row hrow
    rw [hrows]
    exact List.mem_append_left _ hrow
  refine ⟨h.known, fun row hrow p j hj ↦ h.handled row (hold row hrow p j hj) p j hj,
    fun r hr s hs p i j hi hj ↦ h.ordered r (hold r hr p i hi) s (hold s hs p j hj) p i j hi hj,
    fun row hrow p j hj ↦ ?_, fun pass hpass ↦ ⟨fun f hf ↦ ?_, (h.pending pass hpass).2⟩,
    fun f jid rest hup ↦ ?_, h.listed⟩
  · exact (h.covered row (hold row hrow p j hj) p j hj).mono
      (fun s hs k hk ↦ ⟨s, hkeep s hs, hk⟩) (fun _ hi ↦ .inl hi) (fun _ hi ↦ hi)
  · obtain ⟨row, hrow, hfields⟩ := (h.pending pass hpass).1 f hf
    exact ⟨row, hkeep row hrow, hfields⟩
  · obtain ⟨hknown, hgreatest, hfits⟩ := h.answer f jid rest hup
    exact ⟨hknown, hgreatest, fun row hrow j hj ↦ hfits row (hold row hrow _ j hj) j hj⟩

/-! ## 5. Upload passes -/

theorem isPending_of_updatedLocally {registry : Client.Registry} {f : Client.FileRecord}
    (h : f ∈ registry.updatedLocally namespaceId) : IsPending registry namespaceId f := by
  rw [Client.Registry.updatedLocally, List.mem_filter, Option.isNone_iff_eq_none,
    Table.mem_latest_iff] at h
  have hkey := Table.latestOf_key _ _ registry h.1
  have hmem := ((Table.lastOf_eq_some_iff registry _ f).mp h.1).1
  exact ⟨f, hmem, rfl, rfl, by simpa using hkey.1, h.2⟩

theorem Inv.startUpload (h : Inv userId namespaceId σ) (hfree : σ.upload = none) :
    Inv userId namespaceId
      { σ with upload := some ⟨none, σ.client.registry.updatedLocally namespaceId⟩ } := by
  refine ⟨h.known, h.handled, h.ordered, fun row hrow p j hj ↦ ?_, fun pass hpass ↦ ?_,
    fun f jid rest hup ↦ ?_, h.listed⟩
  · refine (h.covered row hrow p j hj).mono (fun s hs k hk ↦ ⟨s, hs, hk⟩) (fun _ hi ↦ .inl hi) ?_
    rintro i ⟨f, rest, hup, -⟩
    rw [hfree] at hup
    cases hup
  · cases hpass
    refine ⟨fun f hf ↦ isPending_of_updatedLocally hf, ?_⟩
    have hsub : (σ.client.registry.updatedLocally namespaceId).Sublist σ.client.registry.rows :=
      List.filter_sublist.trans List.filter_sublist
    exact σ.client.registry.nodup_ids.sublist (hsub.map _)
  · cases hup

/-- The answer to a commit is the greatest known record of the path, and it fits as long as no newer
row carries a jid, or the answer is its jid. -/
theorem Inv.fits (h : Inv userId namespaceId σ) {f : Client.FileRecord} {chunkIds : Text}
    {jid : Int} {journal : Server.Journal}
    (hrecord : Server.commitRecord σ.journal ⟨userId, chunkIds, f.deleted, f.path⟩ = (jid, journal))
    (hnewer : ∀ r ∈ σ.client.registry.rows, ∀ j, Carries namespaceId f.path r j → f.id < r.id →
      ∃ existing, Server.latestForPath σ.journal userId f.path = some existing ∧
        Server.isNoOp existing ⟨userId, chunkIds, f.deleted, f.path⟩ = true ∧ existing.id = j) :
    IsKnown journal userId f.path jid ∧ (∀ i, (f.path, i) ∈ σ.handled → i ≤ jid) ∧
      Fits σ.client.registry namespaceId f jid := by
  obtain ⟨answered, hlatest, rfl, -, -⟩ := Server.latestForPath_commitRecord hrecord
  have hspec := Server.latestForPath_spec hlatest
  have hgreatest : ∀ j, (f.path, j) ∈ σ.handled → j ≤ answered.id := by
    intro j hj
    obtain ⟨r, hr, huser, hpath, rfl⟩ := h.known f.path j hj
    have hmem : r ∈ journal.rows := by
      rcases Server.commitRecord_grows hrecord with rfl | rfl
      · exact hr
      · exact List.mem_append_left _ hr
    exact ((Table.lastOf_eq_some_iff journal _ answered).mp hlatest).2.2 r hmem
      (by simp [huser, hpath])
  refine ⟨⟨answered, hspec.1, hspec.2.1, hspec.2.2, rfl⟩, hgreatest, fun row hrow j hj ↦
    ⟨fun hlt ↦ ?_, fun _ ↦ hgreatest j (h.handled row hrow f.path j hj)⟩⟩
  obtain ⟨existing, hlatest, hnoop, rfl⟩ := hnewer row hrow j hj hlt
  rw [Server.commitRecord, hlatest] at hrecord
  simp only [hnoop, if_true, Prod.mk.injEq] at hrecord
  omega

theorem commit_success_chunks {isPresent : Text → Outcome Unit Bool}
    {journal journal' : Server.Journal} {payload : Server.CommitPayload} {jid : Int}
    (h : Server.commit isPresent journal userId payload = .ok (.success jid, journal')) :
    payload.nonLocalChunks isPresent = .ok [] := by
  obtain ⟨absent, habsent, h⟩ := Outcome.bind_eq_ok h
  by_cases hnil : absent = []
  · rw [habsent, hnil]
  · rw [if_neg hnil] at h
    simp at h

theorem Inv.sendCommit (h : Inv userId namespaceId σ) {reads : Client.Chunker.ReadEnv}
    {isPresent : Text → Outcome Unit Bool} {σ' : Loops}
    (hok : InOrder sha256 userId namespaceId σ (.sendCommit reads isPresent))
    (hstep : next sha256 userId namespaceId σ (.sendCommit reads isPresent) = some σ') :
    Inv userId namespaceId σ' := by
  rw [next] at hstep
  split at hstep
  · rename_i f rest hupload
    split at hstep
    · rename_i chunker chunkIds hhash
      split at hstep
      · rename_i status journal hcommit
        cases hstep
        have hgrown : Peers.Grown σ.journal journal := by
          rcases Server.commit_journal _ hcommit with heq | heq
          · exact .inl heq
          · exact .inr ⟨_, heq⟩
        have hinv := h.grown hgrown
        have hpending := h.pending _ hupload
        have hidle : ∀ {τ : Loops} p i, σ.Awaits p i → τ.Awaits p i := by
          rintro τ p i ⟨g, rest', hup, -⟩
          rw [hupload] at hup
          cases hup
        cases status with
        | needChunks chunks =>
          rw [committed, List.append_nil]
          refine ⟨hinv.known, hinv.handled, hinv.ordered, fun row hrow p j hj ↦ ?_,
            fun pass hpass ↦ ?_, fun g jid rest' hup ↦ ?_, hinv.listed⟩
          · exact (h.covered row hrow p j hj).mono (fun s hs k hk ↦ ⟨s, hs, hk⟩)
              (fun _ hi ↦ .inl hi) (hidle p)
          · cases hpass
            exact hpending
          · cases hup
        | success jid =>
          obtain ⟨hknown, hgreatest, hfits⟩ := h.fits (Server.commit_success _ hcommit)
            (hok f rest hupload chunkIds (by rw [hhash]) (commit_success_chunks hcommit))
          have hmem := mem_handled_append σ.handled f.path jid
          refine ⟨fun p j hj ↦ ?_, fun row hrow p j hj ↦ ?_, hinv.ordered,
            fun row hrow p j hj ↦ ?_, fun pass hpass ↦ ?_, fun g i rest' hup ↦ ?_, hinv.listed⟩
          · rcases (hmem p j).mp hj with hj | ⟨rfl, rfl⟩
            · exact hinv.known p j hj
            · exact hknown
          · exact (hmem p j).mpr (.inl (h.handled row hrow p j hj))
          · -- the recorded commit is in no row yet: it awaits its answer
            refine (h.covered row hrow p j hj).mono (fun s hs k hk ↦ ⟨s, hs, hk⟩)
              (fun i hi ↦ ?_) (hidle p)
            rcases (hmem p i).mp hi with hi | ⟨rfl, rfl⟩
            · exact .inl hi
            · exact .inr ⟨f, rest, rfl, rfl⟩
          · cases hpass
            exact hpending
          · cases hup
            refine ⟨(hmem _ _).mpr (.inr ⟨rfl, rfl⟩), fun i hi ↦ ?_, hfits⟩
            rcases (hmem _ i).mp hi with hi | ⟨-, rfl⟩
            · exact hgreatest i hi
            · exact Int.le_refl _
      · cases hstep
    · cases hstep
  · cases hstep

/-- What setting the jid of a pending row does to the rows. -/
theorem mem_updateJid_iff {registry : Client.Registry} {f : Client.FileRecord}
    (hpending : IsPending registry namespaceId f) (jid : Int) (p : Text) (k j : Int) :
    (∃ row ∈ (registry.updateJid f jid).rows, row.id = k ∧ Carries namespaceId p row j) ↔
      (k = f.id ∧ p = f.path ∧ j = jid) ∨
        ∃ row ∈ registry.rows, row.id = k ∧ Carries namespaceId p row j := by
  obtain ⟨own, hown, hid, hpath, hns, hnone⟩ := hpending
  have hrows : (registry.updateJid f jid).rows =
      registry.rows.map (Client.Registry.FileRecord.setJid f.id jid) := rfl
  rw [hrows]
  constructor
  · rintro ⟨row', hrow', hk, hj⟩
    obtain ⟨row, hrow, rfl⟩ := List.mem_map.mp hrow'
    rw [Client.Registry.FileRecord.id_setJid] at hk
    by_cases heq : row.id = f.id
    · rw [registry.eq_of_id_eq hrow hown (heq.trans hid.symm)] at hk hj
      rw [Client.Registry.FileRecord.setJid, if_pos hid] at hj
      refine .inl ⟨hk.symm.trans hid, ?_, ?_⟩
      · exact hj.2.1.symm.trans hpath
      · exact (Option.some.inj hj.2.2).symm
    · rw [Client.Registry.FileRecord.setJid, if_neg heq] at hj
      exact .inr ⟨row, hrow, hk, hj⟩
  · intro hcases
    rcases hcases with ⟨rfl, rfl, rfl⟩ | ⟨row, hrow, hk, hj⟩
    · refine ⟨_, List.mem_map_of_mem hown, ?_, ?_⟩
      · rw [Client.Registry.FileRecord.id_setJid, hid]
      · rw [Client.Registry.FileRecord.setJid, if_pos hid]
        exact ⟨hns, hpath, rfl⟩
    · have hne : row.id ≠ f.id := by
        intro heq
        have hjid := hj.2.2
        rw [registry.eq_of_id_eq hrow hown (heq.trans hid.symm), hnone] at hjid
        cases hjid
      refine ⟨_, List.mem_map_of_mem hrow, ?_, ?_⟩
      · rw [Client.Registry.FileRecord.id_setJid, hk]
      · rw [Client.Registry.FileRecord.setJid, if_neg hne]
        exact hj

theorem isPending_updateJid {registry : Client.Registry} {f g : Client.FileRecord}
    (hg : IsPending registry namespaceId g) (hne : g.id ≠ f.id) (jid : Int) :
    IsPending (registry.updateJid f jid) namespaceId g := by
  obtain ⟨row, hrow, hid, hfields⟩ := hg
  refine ⟨Client.Registry.FileRecord.setJid f.id jid row, List.mem_map_of_mem hrow, ?_⟩
  rw [Client.Registry.FileRecord.setJid, if_neg (by rw [hid]; exact hne)]
  exact ⟨hid, hfields⟩

theorem Inv.receiveSuccess (h : Inv userId namespaceId σ) {f : Client.FileRecord} {jid : Int}
    {rest : List Client.FileRecord} (hupload : σ.upload = some ⟨some (f, .success jid), rest⟩) :
    Inv userId namespaceId
      { σ with
        client := { σ.client with registry := σ.client.registry.updateJid f jid }
        upload := some ⟨none, rest⟩ } := by
  obtain ⟨hpending, hnodup⟩ := h.pending _ hupload
  obtain ⟨hhandled, hgreatest, hfits⟩ := h.answer f jid rest hupload
  have hf := hpending f (List.mem_append_left _ (by simp))
  have hrows := mem_updateJid_iff hf jid
  have hids : f.id ∉ rest.map Client.FileRecord.id := by
    rw [UploadPass.pending, List.map_append] at hnodup
    exact (List.nodup_cons.mp hnodup).1
  refine ⟨h.known, fun row hrow p j hj ↦ ?_, fun r hr s hs p i j hi hj hlt ↦ ?_,
    fun row hrow p j hj ↦ ?_, fun pass hpass ↦ ?_, fun g j rest' hup ↦ ?_, h.listed⟩
  · rcases (hrows p row.id j).mp ⟨row, hrow, rfl, hj⟩ with ⟨-, rfl, rfl⟩ | ⟨row, hrow, -, hj⟩
    · exact hhandled
    · exact h.handled row hrow p j hj
  · -- the committed row is compared with the others by `Fits`
    rcases (hrows p r.id i).mp ⟨r, hr, rfl, hi⟩ with ⟨hrf, rfl, rfl⟩ | ⟨r', hr', hrid, hi'⟩
    · rcases (hrows f.path s.id j).mp ⟨s, hs, rfl, hj⟩ with ⟨hsf, -, -⟩ | ⟨s', hs', hsid, hj'⟩
      · omega
      · exact (hfits s' hs' j hj').1 (by omega)
    · rcases (hrows p s.id j).mp ⟨s, hs, rfl, hj⟩ with ⟨hsf, rfl, rfl⟩ | ⟨s', hs', hsid, hj'⟩
      · exact (hfits r' hr' i hi').2 (by omega)
      · exact h.ordered r' hr' s' hs' p i j hi' hj' (by omega)
  · by_cases hp : p = f.path
    · -- the answer is the greatest of its path, and has its row now
      subst hp
      obtain ⟨row', hrow', -, hj'⟩ := (hrows f.path f.id jid).mpr (.inl ⟨rfl, rfl, rfl⟩)
      exact ⟨row', hrow', jid, hj', fun i hi ↦ .inl (hgreatest i hi)⟩
    · rcases (hrows p row.id j).mp ⟨row, hrow, rfl, hj⟩ with ⟨-, heq, -⟩ | ⟨row, hrow, -, hj⟩
      · exact absurd heq hp
      · refine (h.covered row hrow p j hj).mono (fun s hs k hk ↦ ?_) (fun _ hi ↦ .inl hi) ?_
        · obtain ⟨t, ht, -, htk⟩ := (hrows p s.id k).mpr (.inr ⟨s, hs, rfl, hk⟩)
          exact ⟨t, ht, htk⟩
        · rintro i ⟨g, rest', hup, rfl⟩
          rw [hupload] at hup
          cases hup
          exact absurd rfl hp
  · cases hpass
    refine ⟨fun g hg ↦ isPending_updateJid (hpending g (List.mem_append_right _ hg)) ?_ jid, ?_⟩
    · intro heq
      exact hids (heq ▸ List.mem_map_of_mem hg)
    · rw [UploadPass.pending, List.map_append] at hnodup
      exact (List.nodup_cons.mp hnodup).2
  · cases hup

theorem Inv.receiveAnswer (h : Inv userId namespaceId σ) {σ' : Loops}
    (hstep : next sha256 userId namespaceId σ .receiveAnswer = some σ') :
    Inv userId namespaceId σ' := by
  rw [next] at hstep
  split at hstep
  · rename_i f jid rest hupload
    cases hstep
    exact h.receiveSuccess hupload
  · rename_i f chunks rest hupload
    cases hstep
    obtain ⟨hpending, hnodup⟩ := h.pending _ hupload
    rw [UploadPass.pending, List.map_append] at hnodup
    refine ⟨h.known, h.handled, h.ordered, fun row hrow p j hj ↦ ?_, fun pass hpass ↦ ?_,
      fun g j rest' hup ↦ ?_, h.listed⟩
    · refine (h.covered row hrow p j hj).mono (fun s hs k hk ↦ ⟨s, hs, hk⟩)
        (fun _ hi ↦ .inl hi) ?_
      rintro i ⟨g, rest', hup, -⟩
      rw [hupload] at hup
      cases hup
    · cases hpass
      exact ⟨fun g hg ↦ hpending g (List.mem_append_right _ hg), (List.nodup_cons.mp hnodup).2⟩
    · cases hup
  · cases hstep

/-- A pass that ends, with or without an answer on its way. -/
theorem Inv.endUpload (h : Inv userId namespaceId σ)
    (hok : ∀ p i, σ.Awaits p i → Reaches namespaceId σ.client.registry p i) :
    Inv userId namespaceId { σ with upload := none } := by
  refine ⟨h.known, h.handled, h.ordered, fun row hrow p j hj ↦ ?_,
    (fun _ hpass ↦ by cases hpass), (fun _ _ _ hup ↦ by cases hup), h.listed⟩
  obtain ⟨s, hs, k, hk, hgreatest⟩ := h.covered row hrow p j hj
  -- only an answer past the rows matters, and the rows have reached the one that is lost
  by_cases hlost : ∃ i, σ.Awaits p i ∧ k < i
  · obtain ⟨i, hi, hlt⟩ := hlost
    obtain ⟨t, ht, m, htm, hle⟩ := hok p i hi row hrow j hj
    refine ⟨t, ht, m, htm, fun i' hi' ↦ .inl ?_⟩
    rcases hgreatest i' hi' with hle' | hi'
    · omega
    · obtain ⟨f, rest, hup, -⟩ := hi
      obtain ⟨f', rest', hup', -⟩ := hi'
      rw [hup] at hup'
      cases hup'
      exact hle
  · refine ⟨s, hs, k, hk, fun i hi ↦ .inl ?_⟩
    rcases hgreatest i hi with hle | hi
    · exact hle
    · by_contra hlt
      exact hlost ⟨i, hi, by omega⟩

/-! ## 6. Download passes -/

theorem Inv.receiveList (h : Inv userId namespaceId σ) {response : List Client.ResponseFileRecord}
    {cursor : Int}
    (hperm : response.Perm ((Server.list σ.journal userId cursor).map respond)) :
    Inv userId namespaceId { σ with download := some (.applying response) } := by
  refine ⟨h.known, h.handled, h.ordered, h.covered, h.pending, h.answer, fun rest hrest d hd ↦ ?_⟩
  cases hrest
  obtain ⟨r, hr, rfl⟩ := List.mem_map.mp (hperm.mem_iff.mp hd)
  have hspec := Server.latestForPath_spec ((Server.mem_list_iff _ _ _ r).mp hr).1
  exact ⟨r, hspec.1, hspec.2.1, rfl, rfl⟩

theorem buildFileRecord_of_read {disk : Client.Disk} {fullPath : Path Name}
    {data : Client.FileData} (h : disk.readFile fullPath = some data)
    (dirMetadata : Place Name → Nat × Client.OffsetDateTime) (p : Text)
    (jid namespaceId : Int) :
    ∃ form,
      Client.Syncer.buildFileRecord disk dirMetadata p fullPath jid namespaceId = .ok form := by
  rw [FileTree.readFile] at h
  split at h
  · rename_i hstat
    rw [Client.Syncer.buildFileRecord, hstat]
    exact ⟨_, rfl⟩
  · cases h

/-- What carrying a record out does to the registry, as far as it gets. -/
theorem applyRecord_cases (namespaceId : Int) (env : Client.Syncer.RecordEnv)
    (s : Client.ClientState) (d : Client.ResponseFileRecord) :
    ((Client.Syncer.applyRecord env namespaceId s d).2 ≠ .ok () ∧
      (Client.Syncer.applyRecord env namespaceId s d).1.registry = s.registry ∧
      (isBegun env s d = true →
        d.deleted = false ∧ (env.metadataFails = true ∨ env.registryFails = true))) ∨
    (isBegun env s d = true ∧
      ∃ (row : Int → Client.FileRecord) (hrow : ∀ i, (row i).id = i),
        (Client.Syncer.applyRecord env namespaceId s d).1.registry = s.registry.insert row hrow ∧
        ∀ i, (row i).jid = some d.id ∧ (row i).path = d.path ∧
          (row i).namespaceId = namespaceId) := by
  cases hdel : d.deleted with
  | true =>
    have hbegun : isBegun env s d = !env.registryFails := by rw [isBegun, if_pos hdel]
    cases hfails : env.registryFails with
    | true =>
      refine .inl ?_
      rw [hbegun, hfails, Client.Syncer.applyRecord, if_pos hdel, if_pos hfails]
      exact ⟨by simp, rfl, fun h ↦ by cases h⟩
    | false =>
      refine .inr ⟨by rw [hbegun, hfails]; rfl,
        (Client.Syncer.buildDeleteForm d.path env.now d.id namespaceId).withId,
        Client.DeleteForm.id_withId _, ?_, fun _ ↦ ⟨rfl, rfl, rfl⟩⟩
      rw [Client.Syncer.applyRecord, if_pos hdel, if_neg (by simp [hfails])]
      simp only
      split <;> rfl
  | false =>
    have hbegun : isBegun env s d = true ↔
        (s.chunker.save s.disk env.save d.path (Client.Syncer.chunksOf d)).1 = .ok () := by
      rw [isBegun, if_neg (by simp [hdel]), decide_eq_true_eq]
    cases hsave : s.chunker.save s.disk env.save d.path (Client.Syncer.chunksOf d) with
    | mk outcome disk =>
      rw [hsave] at hbegun
      rcases Client.Syncer.applyRecord_of_live hdel env namespaceId s hsave with
        ⟨hok, form, hjid, hpath, hns, hdone⟩ | ⟨failure, hne, hfailed⟩
      · rw [hdone]
        exact .inr ⟨hbegun.mpr hok, form.withId, form.id_withId, rfl,
          fun _ ↦ ⟨hjid, hpath, hns⟩⟩
      · refine .inl ⟨by rw [hfailed]; exact hne, by rw [hfailed], fun hok ↦ ⟨rfl, ?_⟩⟩
        -- the file that was written is there when its metadata is asked for
        by_contra hfine
        rw [not_or] at hfine
        cases hbegun.mp hok
        obtain ⟨place, content, -, -, hread, -⟩ := Client.Syncer.exists_of_save_ok hsave
        obtain ⟨data, hdata, -⟩ := Option.map_eq_some_iff.mp hread
        obtain ⟨form, hform⟩ := buildFileRecord_of_read hdata env.dirMetadata d.path d.id namespaceId
        rw [Client.Syncer.applyRecord, if_neg (by simp [hdel]), hsave] at hfailed
        simp only [if_neg hfine.1, hform, if_neg hfine.2, Prod.mk.injEq] at hfailed
        exact hne hfailed.2.symm

/-- A record that is carried out appends the newest row, which has to carry the greatest jid. -/
theorem Inv.insert (h : Inv userId namespaceId σ) {d : Client.ResponseFileRecord}
    (hgreatest : ∀ i, (d.path, i) ∈ σ.handled → i ≤ d.id)
    (hknown : IsKnown σ.journal userId d.path d.id) {row : Int → Client.FileRecord}
    (hid : ∀ i, (row i).id = i)
    (hrow : ∀ i, (row i).jid = some d.id ∧ (row i).path = d.path ∧
      (row i).namespaceId = namespaceId)
    {client : Client.ClientState} (hclient : client.registry = σ.client.registry.insert row hid)
    (hfree : ∀ pass, σ.upload = some pass → pass.waiting = none) :
    Inv userId namespaceId
      { σ with client := client, handled := σ.handled ++ [(d.path, d.id)] } := by
  have hrows : client.registry.rows = σ.client.registry.rows ++ [row σ.client.registry.nextId] := by
    rw [hclient]
    rfl
  have hnew : ∀ p j, Carries namespaceId p (row σ.client.registry.nextId) j ↔
      p = d.path ∧ j = d.id := by
    intro p j
    obtain ⟨hjid, hpath, hns⟩ := hrow σ.client.registry.nextId
    rw [Carries, hjid, hpath, hns, Option.some.injEq]
    exact ⟨fun hc ↦ ⟨hc.2.1.symm, hc.2.2.symm⟩, fun hc ↦ ⟨rfl, hc.1.symm, hc.2.symm⟩⟩
  have hmem : ∀ r, r ∈ client.registry.rows ↔
      r ∈ σ.client.registry.rows ∨ r = row σ.client.registry.nextId := by
    intro r
    rw [hrows, List.mem_append, List.mem_singleton]
  have hhandled := mem_handled_append σ.handled d.path d.id
  refine ⟨fun p j hj ↦ ?_, fun r hr p j hj ↦ ?_, fun r hr s hs p i j hi hj hlt ↦ ?_,
    fun r hr p j hj ↦ ?_, fun pass hpass ↦ ⟨fun f hf ↦ ?_, (h.pending pass hpass).2⟩,
    fun f jid rest hup ↦ ?_, h.listed⟩
  · rcases (hhandled p j).mp hj with hj | ⟨rfl, rfl⟩
    · exact h.known p j hj
    · exact hknown
  · rcases (hmem r).mp hr with hr | rfl
    · exact (hhandled p j).mpr (.inl (h.handled r hr p j hj))
    · exact (hhandled p j).mpr (.inr ((hnew p j).mp hj))
  · -- the new row is the newest, so that only the older row can be an old one
    rcases (hmem s).mp hs with hs | rfl
    · rcases (hmem r).mp hr with hr | rfl
      · exact h.ordered r hr s hs p i j hi hj hlt
      · have hs' := σ.client.registry.lt_nextId hs
        rw [hid] at hlt
        omega
    · rcases (hmem r).mp hr with hr | rfl
      · obtain ⟨rfl, rfl⟩ := (hnew p j).mp hj
        exact hgreatest i (h.handled r hr d.path i hi)
      · omega
  · by_cases hp : p = d.path
    · refine ⟨_, (hmem _).mpr (.inr rfl), d.id, (hnew p d.id).mpr ⟨hp, rfl⟩, fun i hi ↦ .inl ?_⟩
      subst hp
      rcases (hhandled d.path i).mp hi with hi | ⟨-, rfl⟩
      · exact hgreatest i hi
      · exact Int.le_refl _
    · rcases (hmem r).mp hr with hr | rfl
      · refine (h.covered r hr p j hj).mono (fun s hs k hk ↦ ⟨s, (hmem s).mpr (.inl hs), hk⟩)
          (fun i hi ↦ .inl ?_) (fun _ hi ↦ hi)
        exact ((hhandled p i).mp hi).resolve_right fun heq ↦ hp heq.1
      · exact absurd ((hnew p j).mp hj).1 hp
  · obtain ⟨own, hown, hfields⟩ := (h.pending pass hpass).1 f hf
    exact ⟨own, (hmem own).mpr (.inl hown), hfields⟩
  · cases hfree _ hup

/-- A record whose file is written, but not its row. -/
theorem Inv.writeFile (h : Inv userId namespaceId σ) {d : Client.ResponseFileRecord}
    (hgreatest : ∀ i, (d.path, i) ∈ σ.handled → i ≤ d.id)
    (hreaches : Reaches namespaceId σ.client.registry d.path d.id)
    (hknown : IsKnown σ.journal userId d.path d.id)
    (hfree : ∀ pass, σ.upload = some pass → pass.waiting = none) :
    Inv userId namespaceId { σ with handled := σ.handled ++ [(d.path, d.id)] } := by
  have hhandled := mem_handled_append σ.handled d.path d.id
  refine ⟨fun p j hj ↦ ?_, fun r hr p j hj ↦ (hhandled p j).mpr (.inl (h.handled r hr p j hj)),
    h.ordered, fun r hr p j hj ↦ ?_, h.pending, fun f jid rest hup ↦ ?_, h.listed⟩
  · rcases (hhandled p j).mp hj with hj | ⟨rfl, rfl⟩
    · exact h.known p j hj
    · exact hknown
  · by_cases hp : p = d.path
    · subst hp
      obtain ⟨s, hs, k, hk, hle⟩ := hreaches r hr j hj
      refine ⟨s, hs, k, hk, fun i hi ↦ .inl ?_⟩
      rcases (hhandled d.path i).mp hi with hi | ⟨-, rfl⟩
      · exact Int.le_trans (hgreatest i hi) hle
      · exact hle
    · refine (h.covered r hr p j hj).mono (fun s hs k hk ↦ ⟨s, hs, hk⟩) (fun i hi ↦ .inl ?_)
        (fun _ hi ↦ hi)
      exact ((hhandled p i).mp hi).resolve_right fun heq ↦ hp heq.1
  · cases hfree _ hup

theorem Inv.applyNext (h : Inv userId namespaceId σ) {env : Client.Syncer.RecordEnv} {σ' : Loops}
    (hok : InOrder sha256 userId namespaceId σ (.applyNext env))
    (hstep : next sha256 userId namespaceId σ (.applyNext env) = some σ') :
    Inv userId namespaceId σ' := by
  rw [next] at hstep
  split at hstep
  · rename_i d rest hdownload
    split at hstep
    · cases hstep
    · rename_i hunlocked
      have hfree : ∀ pass, σ.upload = some pass → pass.waiting = none := by
        intro pass hpass
        simpa [isLocked, hpass] using hunlocked
      have hdone : ∀ {τ : Loops}, Inv userId namespaceId τ → τ.journal = σ.journal →
          ∀ download, (download = some (.applying rest) ∨ download = none) →
          Inv userId namespaceId { τ with download := download } := by
        intro τ hτ hjournal download hcases
        refine ⟨hτ.known, hτ.handled, hτ.ordered, hτ.covered, hτ.pending, hτ.answer,
          fun rest' hrest e he ↦ ?_⟩
        rcases hcases with rfl | rfl
        · cases hrest
          show IsKnown τ.journal userId e.path e.id
          rw [hjournal]
          exact h.listed _ hdownload e (List.mem_cons_of_mem d he)
        · cases hrest
      obtain ⟨hgreatest, hcut⟩ := hok d rest hdownload
      have hknown := h.listed _ hdownload d List.mem_cons_self
      -- a record that fails has left the registry as it was, and perhaps a written file
      rcases applyRecord_cases namespaceId env σ.client d with
        ⟨hfail, hreg, hhalf⟩ | ⟨hbegun, row, hid, hreg, hrow⟩
      · simp only [if_neg hfail] at hstep
        cases hstep
        split
        · rename_i hbegun
          obtain ⟨hlive, hfails⟩ := hhalf hbegun
          have hnew := (h.writeFile hgreatest (hcut hlive hfails) hknown hfree).of_registry hreg
          exact hdone hnew rfl none (.inr rfl)
        · exact hdone (h.of_registry hreg) rfl none (.inr rfl)
      · simp only [if_pos hbegun] at hstep
        cases hstep
        refine hdone (h.insert hgreatest hknown hid hrow hreg hfree) rfl _ ?_
        split
        · exact .inl rfl
        · exact .inr rfl
  · cases hstep

/-! ## 7. All steps -/

/-- What one action preserves. -/
theorem Inv.next {a : LoopAction} {σ' : Loops} (h : Inv userId namespaceId σ)
    (hok : InOrder sha256 userId namespaceId σ a)
    (hstep : next sha256 userId namespaceId σ a = some σ') : Inv userId namespaceId σ' := by
  cases a with
  | edit disk =>
    cases hstep
    exact h.of_registry rfl
  | cache chunker =>
    cases hstep
    exact h.of_registry rfl
  | index env order faults =>
    cases hstep
    obtain ⟨added, hrows, hnone⟩ := Client.rows_checkIndexOnce σ.client.registry σ.client.disk env
      order faults σ.client.chunker.basePath namespaceId
    exact h.append hrows hnone
  | startUpload =>
    rw [Loops.next] at hstep
    split at hstep
    · cases hstep
    · rename_i hfree
      cases hstep
      exact h.startUpload hfree
  | sendCommit reads isPresent => exact h.sendCommit hok hstep
  | receiveAnswer => exact h.receiveAnswer hstep
  | endUpload =>
    cases hstep
    exact h.endUpload hok
  | startDownload latestJidFails =>
    rw [Loops.next] at hstep
    split at hstep
    · cases hstep
    · cases hstep
      exact ⟨h.known, h.handled, h.ordered, h.covered, h.pending, h.answer,
        fun _ hrest ↦ by cases hrest⟩
  | receiveList response =>
    rw [Loops.next] at hstep
    split at hstep
    · split at hstep
      · rename_i hperm
        cases hstep
        exact h.receiveList (List.isPerm_iff.mp hperm)
      · cases hstep
    · cases hstep
  | applyNext env => exact h.applyNext hok hstep
  | endDownload =>
    cases hstep
    exact ⟨h.known, h.handled, h.ordered, h.covered, h.pending, h.answer,
      fun _ hrest ↦ by cases hrest⟩
  | foreign other payload isPresent =>
    rw [Loops.next] at hstep
    split at hstep
    · rename_i status journal hcommit
      cases hstep
      rcases Server.commit_journal _ hcommit with heq | heq
      · exact h.grown (.inl heq)
      · exact h.grown (.inr ⟨_, heq⟩)
    · cases hstep

theorem Inv.described (h : Inv userId namespaceId σ) : IsDescribed namespaceId σ := by
  intro p r hlast
  obtain ⟨hr, hkey, hnewest⟩ := (Table.lastOf_eq_some_iff _ _ r).mp hlast
  simp only [Bool.and_eq_true, beq_iff_eq] at hkey
  obtain ⟨j, hj⟩ := Option.isSome_iff_exists.mp hkey.2
  have hcarries : Carries namespaceId p r j := ⟨hkey.1.1, hkey.1.2, hj⟩
  obtain ⟨s, hs, k, hk, hgreatest⟩ := h.covered r hr p j hcarries
  have hle : k ≤ j := by
    by_cases hsame : s.id = r.id
    · have hjid := hk.2.2
      rw [σ.client.registry.eq_of_id_eq hs hr hsame, hj] at hjid
      cases hjid
      exact Int.le_refl _
    · have hid := hnewest s hs (by simp [hk.1, hk.2.1, hk.2.2])
      exact h.ordered s hs r hr p k j hk hcarries (by omega)
  exact ⟨j, hj, h.handled r hr p j hcarries,
    fun i hi ↦ (hgreatest i hi).imp_left fun hik ↦ Int.le_trans hik hle⟩

/-- In a run whose commits and records come in order, the rows of every path carry their jids in
order, and the newest of them the greatest. -/
theorem isOrdered_of_inOrder
    (h : (system sha256 userId namespaceId).Reachable (InOrder sha256 userId namespaceId) σ) :
    IsOrdered namespaceId σ.client.registry ∧ IsDescribed namespaceId σ := by
  have hinv : Inv userId namespaceId σ := h.invariant (fun _ hinit ↦ Inv.init hinit)
    fun _ _ _ hinv hok hstep ↦ hinv.next hok hstep
  exact ⟨hinv.ordered, hinv.described⟩

end Invariant

-- An example: a client with one recipe in `/s`, which another client of the user has as well.
def oneClient : Loops where
  journal := Table.empty
  client :=
    { registry := Table.empty
      chunker := ⟨⟨fun _ ↦ none, 0, fun _ _ ↦ false⟩, parsePath "/s".toList⟩
      disk := (FileTree.root.put [115] [] .dir).put (toUtf8 "a.cook".toList) [[115]]
        (.file ⟨[120], ⟨0, 0⟩⟩) }
  upload := none
  download := none
  handled := []

def oneSystem : System Loops LoopAction := system (fun _ ↦ "h".toList) 1 1

theorem fresh_oneClient : oneSystem.init oneClient := ⟨rfl, rfl, rfl, rfl, rfl⟩

def indexOnce : LoopAction :=
  .index ⟨fun _ ↦ false, fun _ ↦ false, fun _ ↦ (0, ⟨0, 0⟩)⟩ ⟨.inOrder, .inOrder⟩
    ⟨false, false, false⟩

def sendOnce : LoopAction := .sendCommit ⟨fun _ ↦ 1, none⟩ fun _ ↦ .ok true

def applyOnce : LoopAction :=
  .applyNext ⟨⟨none, 0, ⟨0, 0⟩⟩, ⟨false, fun _ ↦ false⟩, false, fun _ ↦ (0, ⟨0, 0⟩), false, ⟨0, 0⟩⟩

-- The client commits its recipe and carries out the other client's change of it.  The answer to the
-- commit of a second recipe is lost, and the commit is repeated.
def takeOrder : List LoopAction :=
  [indexOnce, .startUpload, sendOnce, .receiveAnswer, .endUpload,
    .foreign 1 ⟨"a.cook".toList, false, []⟩ (fun _ ↦ .ok true),
    .startDownload false, .receiveList [⟨2, "a.cook".toList, false, []⟩], applyOnce, .endDownload,
    .edit (((FileTree.root.put [115] [] .dir).put (toUtf8 "a.cook".toList) [[115]]
      (.file ⟨[], ⟨0, 0⟩⟩)).put (toUtf8 "b.cook".toList) [[115]] (.file ⟨[120], ⟨0, 0⟩⟩)),
    indexOnce, .startUpload, sendOnce, .endUpload, .startUpload, sendOnce, .receiveAnswer]

/-- A row is committed while no row of its path is newer, an answer is lost only where no row of the
path carries a jid, and nothing fails when a record is carried out. -/
def isInOrder (σ : Loops) : LoopAction → Bool
  | .sendCommit .. =>
    match σ.upload with
    | some ⟨none, f :: _⟩ => σ.client.registry.rows.all fun r ↦ r.path != f.path || r.id ≤ f.id
    | _ => true
  | .endUpload =>
    match σ.upload with
    | some ⟨some (f, _), _⟩ => σ.client.registry.rows.all fun r ↦ r.path != f.path || r.jid.isNone
    | _ => true
  | .applyNext env =>
    match σ.download with
    | some (.applying (d :: _)) =>
      !env.metadataFails && !env.registryFails && σ.handled.all fun h ↦ h.1 != d.path || h.2 ≤ d.id
    | _ => true
  | _ => true

theorem inOrder_of_isInOrder {σ : Loops} {a : LoopAction} (h : isInOrder σ a = true) :
    InOrder (fun _ ↦ "h".toList) 1 1 σ a := by
  cases a with
  | sendCommit reads isPresent =>
    intro f rest hupload chunkIds _ _ r hr j hj hlt
    rw [isInOrder, hupload] at h
    have hle := List.all_eq_true.mp h r hr
    simp [hj.2.1] at hle
    omega
  | endUpload =>
    rintro p i ⟨f, rest, hupload, rfl⟩ r hr j hj
    rw [isInOrder, hupload] at h
    have hnone := List.all_eq_true.mp h r hr
    simp [hj.2.1, hj.2.2] at hnone
  | applyNext env =>
    intro d rest hdownload
    rw [isInOrder, hdownload] at h
    simp only [Bool.and_eq_true, Bool.not_eq_true', List.all_eq_true] at h
    refine ⟨fun i hi ↦ ?_, fun _ hfails ↦ ?_⟩
    · simpa using h.2 _ hi
    · simp [h.1.1, h.1.2] at hfails
  | _ => trivial

theorem isInOrder_takeOrder : ∀ i < 18, (oneSystem.run oneClient (takeOrder.take i)).all fun σ ↦
    takeOrder[i]?.all (isInOrder σ) := by
  decide +kernel

theorem isOrdered_takeOrder :
    ∃ σ, oneSystem.run oneClient takeOrder = some σ ∧
      σ.client.registry.rows.map (fun r ↦ (r.path, r.jid)) =
        [("a.cook".toList, some 1), ("a.cook".toList, some 2), ("b.cook".toList, some 3)] ∧
      IsOrdered 1 σ.client.registry ∧ IsDescribed 1 σ := by
  have hend : (oneSystem.run oneClient takeOrder).map
      (fun σ ↦ σ.client.registry.rows.map fun r ↦ (r.path, r.jid)) =
      some [("a.cook".toList, some 1), ("a.cook".toList, some 2), ("b.cook".toList, some 3)] := by
    decide +kernel
  obtain ⟨σ, hrun, hrows⟩ := Option.map_eq_some_iff.mp hend
  have hreach : oneSystem.Reachable (InOrder (fun _ ↦ "h".toList) 1 1) σ := by
    apply (System.Reachable.init fresh_oneClient).run_of_ok hrun
    intro i a t ha ht
    have horder := isInOrder_takeOrder i (List.getElem?_eq_some_iff.mp ha).1
    rw [ht, Option.all_some, ha, Option.all_some] at horder
    exact inOrder_of_isInOrder horder
  exact ⟨σ, hrun, hrows, isOrdered_of_inOrder hreach⟩

-- The response with the other client's record is older than the client's own commit.
theorem isOrdered_fails :
    ¬ ∀ (sha256 : Bytes → Text) (userId namespaceId : Int) (σ : Loops),
      (system sha256 userId namespaceId).Reachable System.anyAction σ →
      IsOrdered namespaceId σ.client.registry := by
  intro h
  let run := oneSystem.run oneClient
    [indexOnce, .startUpload, .foreign 1 ⟨"a.cook".toList, false, []⟩ (fun _ ↦ .ok true),
      .startDownload false, .receiveList [⟨1, "a.cook".toList, false, []⟩], sendOnce,
      .receiveAnswer, applyOnce]
  have hsome : run.isSome := by decide +kernel
  obtain ⟨σ, hrun⟩ := Option.isSome_iff_exists.mp hsome
  have hordered := h (fun _ ↦ "h".toList) 1 1 σ ((System.Reachable.init fresh_oneClient).run hrun)
  have hrows : run.map (·.client.registry.rows) = some
      [⟨1, some 2, false, "a.cook".toList, 1, ⟨0, 0⟩, 1⟩,
        ⟨2, some 1, false, "a.cook".toList, 0, ⟨0, 0⟩, 1⟩] := by decide +kernel
  rw [show run = some σ from hrun, Option.map_some, Option.some.injEq] at hrows
  have hle := hordered ⟨1, some 2, false, "a.cook".toList, 1, ⟨0, 0⟩, 1⟩ (by rw [hrows]; simp)
    ⟨2, some 1, false, "a.cook".toList, 0, ⟨0, 0⟩, 1⟩ (by rw [hrows]; simp) "a.cook".toList 2 1
    ⟨rfl, rfl, rfl⟩ ⟨rfl, rfl, rfl⟩ (by decide)
  omega

end Loops

end CooklangSync.System
