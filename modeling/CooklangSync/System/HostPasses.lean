import CooklangSync.System.Host
import CooklangSync.System.Rounds

/-!
# Host passes — the passes of a client over the wire

What the server answers to the requests of an upload pass is what the pass is taken to be answered
with elsewhere (`IsServed`), and what it then has, once everything has landed, is what is taken to be
stored.
-/

namespace CooklangSync.System

open Theory Client Server

section Passes

variable {P : Type} [DecidableEq P] {root : Path Name} {place : Path Name → P} {parsers : Parsers}
  {host host' : Host P} {v : Vault} {sha256 : Bytes → Text} {userId namespaceId : Int}
  {env : Syncer.UploadEnv} {s : ClientState}

/-! ## 1. The requests of an upload pass -/

/-- With which boundary a batch is sent, how it is cut, and what lands before it is answered. -/
structure Parcel where
  uuid : Uuid
  sizes : List Nat
  lands : Nat → Option (Nat × Nat)

section Requests

variable (sha256 userId env s)

def commitRequest (row : Client.FileRecord × Nat) : Request :=
  .commit userId row.1.path row.1.deleted (Syncer.sentIds sha256 (env.reads row.2) s row.1)

def commitAnswer (row : Client.FileRecord × Nat) : Answer :=
  .committed (env.commit row.2 row.1 (Syncer.sentIds sha256 (env.reads row.2) s row.1))

def uploadRequests (parcels : Nat → Parcel) (batches : List (List Chunk)) : List Request :=
  batches.zipIdx.map fun batch ↦
    .upload (parcels batch.2).uuid batch.1 (parcels batch.2).sizes (parcels batch.2).lands

def passRequests (parcels : Nat → Parcel) (namespaceId : Int) : List Request :=
  (s.registry.updatedLocally namespaceId).zipIdx.map (commitRequest sha256 userId env s) ++
    uploadRequests parcels (Syncer.sentBatches sha256 env namespaceId s)

def passAnswers (namespaceId : Int) : List Answer :=
  (s.registry.updatedLocally namespaceId).zipIdx.map (commitAnswer sha256 env s) ++
    (Syncer.sentBatches sha256 env namespaceId s).map fun batch ↦ .uploaded (env.uploadBatch batch)

/-- The requests are within the limits of the server, and the batches have one content for each id. -/
structure FitsServer (parcels : Nat → Parcel) (namespaceId : Int) : Prop where
  forms : ∀ row ∈ (s.registry.updatedLocally namespaceId).zipIdx,
    (commitBody row.1.path row.1.deleted (Syncer.sentIds sha256 (env.reads row.2) s row.1)).length ≤
      Metadata.formLimit
  boundaries : ∀ k, IsBoundary (parcels k).uuid.boundary
  batches : ∀ batch ∈ (Syncer.sentBatches sha256 env namespaceId s).zipIdx,
    (∀ chunk ∈ batch.1, ¬ boundaryBytes (parcels batch.2).uuid.boundary <:+: chunk.2) ∧
      (uploadBatchBody (parcels batch.2).uuid.boundary batch.1).length < dataFormLimit
  agree : ∀ a ∈ (Syncer.sentBatches sha256 env namespaceId s).flatten,
    ∀ b ∈ (Syncer.sentBatches sha256 env namespaceId s).flatten, a.1 = b.1 → a.2 = b.2

end Requests

/-! ## 2. Commits -/

/-- What is stored, as the vault has it. -/
def Vault.stored (v : Vault) (id : Text) : Bool := (v.store id).isSome

theorem Vault.serve_commit (v : Vault) (userId : Int) (path chunkIds : Text) (deleted : Bool) :
    ∃ status journal, Server.commit (isStored v.stored) v.journal userId ⟨path, deleted, chunkIds⟩ =
        .ok (status, journal) ∧
      v.serve (.commit userId path deleted chunkIds) =
        ({ v with journal := journal }, .committed (.ok (answerOf status))) := by
  have habsent : CommitPayload.nonLocalChunks (isStored v.stored) ⟨path, deleted, chunkIds⟩ =
      .ok (v.absent chunkIds) := absentChunks_ok _ _
  rw [Server.commit, habsent, Outcome.ok_bind, Vault.serve]
  by_cases hnone : v.absent chunkIds = []
  · rw [if_pos hnone, if_pos hnone]
    exact ⟨_, _, rfl, rfl⟩
  · rw [if_neg hnone, if_neg hnone]
    exact ⟨_, _, rfl, rfl⟩

/-- Commits that are answered by the vault are served. -/
theorem Vault.serves_of_run {v : Vault} {fs : List Client.FileRecord} {i : Nat}
    (h : (Vault.requestService.run v ((fs.zipIdx i).map (commitRequest sha256 userId env s))).2 =
      (fs.zipIdx i).map (commitAnswer sha256 env s)) :
    ∃ journal', Serves sha256 userId v.stored env s i v.journal fs journal' ∧
      (Vault.requestService.run v ((fs.zipIdx i).map (commitRequest sha256 userId env s))).1 =
        { v with journal := journal' } := by
  induction fs generalizing v i with
  | nil => exact ⟨v.journal, rfl, rfl⟩
  | cons f fs ih =>
    obtain ⟨status, next, hcommit, hserve⟩ := v.serve_commit userId f.path
      (Syncer.sentIds sha256 (env.reads i) s f) f.deleted
    rw [List.zipIdx_cons, List.map_cons, List.map_cons, Service.run] at h
    have hone : Vault.requestService.serve v (commitRequest sha256 userId env s (f, i)) =
        ({ v with journal := next }, .committed (.ok (answerOf status))) := hserve
    rw [hone] at h
    obtain ⟨hanswer, hrest⟩ := List.cons.inj h
    obtain ⟨journal', hserves, hrun⟩ := ih hrest
    refine ⟨journal', ⟨status, next, hcommit, ?_, hserves⟩, ?_⟩
    · exact (Answer.committed.inj hanswer).symm
    · rw [List.zipIdx_cons, List.map_cons, Service.run, hone]
      exact hrun

-- How batches are received plays no part in the commits.
theorem serves_with {stored : Text → Bool} {upload : List Chunk → Outcome SyncError Unit}
    {fs : List Client.FileRecord} {i : Nat} {journal journal' : Journal}
    (h : Serves sha256 userId stored env s i journal fs journal') :
    Serves sha256 userId stored { env with uploadBatch := upload } s i journal fs journal' := by
  induction fs generalizing i journal with
  | nil => exact h
  | cons f fs ih =>
    obtain ⟨status, next, hcommit, hanswer, hrest⟩ := h
    exact ⟨status, next, hcommit, hanswer, ih hrest⟩

/-- The ids of a row can be sent. -/
theorem alphanumeric_of_mem_sentIds (hdigest : IsHexDigest sha256) (reads : Chunker.ReadEnv)
    (s : ClientState) (f : Client.FileRecord) :
    ∀ id ∈ (Syncer.sentIds sha256 reads s f).splitOn ',', Alphanumeric id := by
  intro id hid
  rw [Syncer.splitOn_sentIds hdigest] at hid
  split at hid
  · rw [List.mem_singleton.mp hid]
    exact fun c hc ↦ by cases hc
  · obtain ⟨chunks, hchunks⟩ := @Syncer.fileIds_eq_map sha256 reads s f
    rw [hchunks] at hid
    obtain ⟨data, -, rfl⟩ := List.mem_map.mp hid
    exact Chunker.alphanumeric_hash hdigest data _

/-! ## 3. Batches -/

theorem Vault.run_uploads (v : Vault) (parcels : Nat → Parcel) (batches : List (List Chunk)) :
    Vault.requestService.run v (uploadRequests parcels batches) =
      ({ v with store := storeChunks v.store batches.flatten },
        batches.map fun _ ↦ .uploaded (.ok ())) := by
  have hall : ∀ (batches : List (List Chunk)) (k : Nat) (v : Vault),
      Vault.requestService.run v ((batches.zipIdx k).map fun batch ↦
          .upload (parcels batch.2).uuid batch.1 (parcels batch.2).sizes (parcels batch.2).lands) =
        ({ v with store := storeChunks v.store batches.flatten },
          batches.map fun _ ↦ .uploaded (.ok ())) := by
    intro batches
    induction batches with
    | nil => exact fun _ _ ↦ rfl
    | cons batch rest ih =>
      intro k v
      have hone : Vault.requestService.serve v (.upload (parcels k).uuid batch
          (parcels k).sizes (parcels k).lands) =
          ({ v with store := storeChunks v.store batch }, .uploaded (.ok ())) := rfl
      rw [List.zipIdx_cons, List.map_cons, Service.run, hone, ih, List.flatten_cons,
        storeChunks_append]
      rfl
  exact hall batches 0 v

/-- The chunks of the batches have ids that can be sent. -/
theorem alphanumeric_of_mem_sentBatches (hdigest : IsHexDigest sha256)
    (hreads : ∀ i, (env.reads i).failsAfter = none) (hregistry : ∀ i, env.registryFails i = false)
    (hevicts : s.chunker.EvictsNothing) {stored : Text → Bool} {journal journal' : Journal}
    (hfs : ∀ f ∈ s.registry.updatedLocally namespaceId, Syncer.IsReadable s f)
    (hserves : Serves sha256 userId stored env s 0 journal (s.registry.updatedLocally namespaceId)
      journal') :
    ∀ batch ∈ Syncer.sentBatches sha256 env namespaceId s, ∀ chunk ∈ batch,
      Alphanumeric chunk.1 ∧ chunk.1 ≠ [] := by
  obtain ⟨t', chunks, jids, hpass, -, hnames, -⟩ :=
    uploadFiles_served hdigest hreads hregistry ⟨rfl, rfl, hevicts⟩ hfs hserves .empty true
  intro batch hbatch chunk hchunk
  have hmem : chunk ∈ chunks := by
    rw [Syncer.sentBatches, hpass] at hbatch
    split at hbatch
    · cases hbatch
    · have hholds : Client.UploadQueue.Holds (chunks.foldl Client.UploadQueue.push .empty) chunks :=
        Client.UploadQueue.holds_empty.foldl chunks
      rw [← hholds.flatten_batches]
      exact List.mem_flatten.mpr ⟨batch, (Syncer.handedBatches_prefix env _).subset hbatch, hchunk⟩
  have hid : chunk.1 ∈ lacking sha256 stored env s
      ((s.registry.updatedLocally namespaceId).zipIdx 0) := by
    rw [← hnames]
    exact List.mem_map_of_mem hmem
  obtain ⟨row, -, hid⟩ := List.mem_flatMap.mp hid
  have hid := (List.mem_filter.mp hid).1
  refine ⟨?_, (Syncer.ne_nil_of_mem_fileIds hdigest hid).1⟩
  obtain ⟨pieces, hpieces⟩ := @Syncer.fileIds_eq_map sha256 (env.reads row.2) s row.1
  rw [hpieces] at hid
  obtain ⟨data, -, hdata⟩ := List.mem_map.mp hid
  exact hdata ▸ Chunker.alphanumeric_hash hdigest data _

/-! ## 4. Chunks that may be sent -/

theorem storeChunks_of_not_mem {store : Text → Option Bytes} {chunks : List Chunk} {id : Text}
    (h : ∀ chunk ∈ chunks, chunk.1 ≠ id) : storeChunks store chunks id = store id := by
  induction chunks generalizing store with
  | nil => rfl
  | cons chunk rest ih =>
    rw [List.forall_mem_cons] at h
    exact (ih h.2).trans (Function.update_of_ne (Ne.symm h.1) _ _)

theorem storeChunks_of_agree {store : Text → Option Bytes} {chunks : List Chunk} {id : Text}
    {content : Bytes} (hmem : ∃ chunk ∈ chunks, chunk.1 = id)
    (hagree : ∀ chunk ∈ chunks, chunk.1 = id → chunk.2 = content) :
    storeChunks store chunks id = some content := by
  induction chunks generalizing store with
  | nil =>
    obtain ⟨chunk, hchunk, -⟩ := hmem
    cases hchunk
  | cons chunk rest ih =>
    rw [List.forall_mem_cons] at hagree
    change storeChunks (Function.update store chunk.1 (some chunk.2)) rest id = _
    by_cases hrest : ∃ c ∈ rest, c.1 = id
    · exact ih hrest hagree.2
    · push Not at hrest
      rw [storeChunks_of_not_mem hrest]
      obtain ⟨c, hc, hid⟩ := hmem
      rcases List.mem_cons.mp hc with rfl | hc
      · rw [← hid, Function.update_self, hagree.1 hid]
      · exact absurd hid (hrest c hc)

/-- Of each chunk to be sent, nothing but its own bytes is under way. -/
def IsReady (root : Path Name) (place : Path Name → P) (sent : List Chunk) (s : Host P × Vault) :
    Prop :=
  ∀ chunk ∈ sent, s.1.IsQuiet root place chunk.1 ∨ s.2.store chunk.1 = some chunk.2

theorem Host.disk_commit (host : Host P) (userId : Int) (path chunkIds : Text) (deleted : Bool) :
    (host.serve root place parsers (.commit userId path deleted chunkIds)).1.disk = host.disk := by
  rw [Host.serve]
  split <;> rfl

theorem IsReady.commit {sent : List Chunk} (hready : IsReady root place sent (host, v))
    {userId : Int} {path chunkIds : Text} {deleted : Bool}
    (hok : v.IsAdmissible (.commit userId path deleted chunkIds)) :
    IsOrdinary root place (host, v) (.request (.commit userId path deleted chunkIds)) ∧
      IsReady root place sent
        ((host.serve root place parsers (.commit userId path deleted chunkIds)).1,
          (v.serve (.commit userId path deleted chunkIds)).1) := by
  obtain ⟨status, journal, -, hserve⟩ := v.serve_commit userId path chunkIds deleted
  refine ⟨⟨hok, trivial⟩, fun chunk hchunk ↦ ?_⟩
  rw [hserve, Host.IsQuiet, Host.disk_commit]
  exact hready chunk hchunk

theorem IsReady.upload {sent : List Chunk} (hready : IsReady root place sent (host, v))
    (hplace : Path.Separates root place) (hparsers : parsers.IsSound)
    (h : Represents root place host v) {uuid : Uuid} {chunks : List Chunk} {sizes : List Nat}
    {lands : Nat → Option (Nat × Nat)} (hok : v.IsAdmissible (.upload uuid chunks sizes lands))
    (hchunks : ∀ chunk ∈ chunks, chunk ∈ sent)
    (hagree : ∀ a ∈ sent, ∀ b ∈ sent, a.1 = b.1 → a.2 = b.2) :
    IsOrdinary root place (host, v) (.request (.upload uuid chunks sizes lands)) ∧
      IsReady root place sent
        ((host.serve root place parsers (.upload uuid chunks sizes lands)).1,
          (v.serve (.upload uuid chunks sizes lands)).1) := by
  have htimely : IsTimely root place host v (.upload uuid chunks sizes lands) :=
    ⟨fun a ha b hb ↦ hagree a (hchunks a ha) b (hchunks b hb),
      fun chunk hchunk ↦ hready chunk (hchunks chunk hchunk)⟩
  refine ⟨⟨hok, htimely⟩, fun chunk hchunk ↦ ?_⟩
  by_cases hsent : ∃ c ∈ chunks, c.1 = chunk.1
  · exact .inr (storeChunks_of_agree hsent fun c hc hid ↦ hagree c (hchunks c hc) chunk hchunk hid)
  · push Not at hsent
    refine (hready chunk hchunk).imp ?_ fun hstored ↦ ?_
    · exact (h.upload hplace hparsers hok htimely).2 chunk.1 hsent
    · exact (storeChunks_of_not_mem hsent).trans hstored

/-- A request of an upload pass, admissible wherever it is made. -/
def IsPassRequest (sent : List Chunk) (r : Request) : Prop :=
  (∀ v : Vault, v.IsAdmissible r) ∧
    match r with
    | .upload _ chunks _ _ => ∀ chunk ∈ chunks, chunk ∈ sent
    | .commit .. => True
    | _ => False

/-- Such requests are answered as by the vault, whatever lands between them. -/
theorem run_passEvents (hplace : Path.Separates root place) (hparsers : parsers.IsSound)
    (h : Represents root place host v) {sent : List Chunk}
    (hready : IsReady root place sent (host, v))
    (hagree : ∀ a ∈ sent, ∀ b ∈ sent, a.1 = b.1 → a.2 = b.2) (events : List Event)
    (hrequests : ∀ r ∈ requestsOf events, IsPassRequest sent r) :
    ((Host.service P root place parsers).run host events).2.filterMap id =
        (Vault.requestService.run v (requestsOf events)).2 ∧
      Represents root place ((Host.service P root place parsers).run host events).1
        (Vault.requestService.run v (requestsOf events)).1 ∧
      IsReady root place sent (((Host.service P root place parsers).run host events).1,
        (Vault.requestService.run v (requestsOf events)).1) := by
  induction events generalizing host v with
  | nil => exact ⟨rfl, h, hready⟩
  | cons event rest ih =>
    cases event with
    | lands k =>
      refine ih (h.next hplace hparsers (.lands k) trivial).2 (fun chunk hchunk ↦ ?_)
        hrequests
      exact (hready chunk hchunk).imp_left fun hquiet ↦ (Disk.IsQuiet.renumber hquiet 0).land.1
    | request r =>
      change ∀ r' ∈ r :: requestsOf rest, _ at hrequests
      rw [List.forall_mem_cons] at hrequests
      obtain ⟨⟨hok, hkind⟩, hrest⟩ := hrequests
      have hnext : IsOrdinary root place (host, v) (.request r) ∧ IsReady root place sent
          ((host.serve root place parsers r).1, (v.serve r).1) := by
        cases r with
        | upload uuid chunks sizes lands =>
          exact hready.upload hplace hparsers h (hok v) hkind hagree
        | commit userId path deleted chunkIds => exact hready.commit (hok v)
        | download ids boundary sizes => exact hkind.elim
        | retrieve id => exact hkind.elim
      obtain ⟨hanswer, hrep⟩ := h.answersAs hplace hparsers hnext.1.1 hnext.1.2
      obtain ⟨hanswers, hlast⟩ := ih hrep hnext.2 hrest
      refine ⟨?_, hlast⟩
      exact congrArg₂ (· :: ·) hanswer hanswers

/-! ## 5. A pass -/

/-- An upload pass whose requests the server answers over the wire is served, and the server has
afterwards what is taken to be stored, whatever lands when. -/
theorem isServed_of_host (hdigest : IsHexDigest sha256) (hplace : Path.Separates root place)
    (hparsers : parsers.IsSound) (h : Represents root place host v) (hquery : env.queryFails = false)
    (hreads : ∀ i, (env.reads i).failsAfter = none) (hregistry : ∀ i, env.registryFails i = false)
    (hevicts : s.chunker.EvictsNothing)
    (hfs : ∀ f ∈ s.registry.updatedLocally namespaceId, Syncer.IsReadable s f)
    {parcels : Nat → Parcel} (hfits : FitsServer sha256 env s parcels namespaceId)
    (hready : IsReady root place (Syncer.sentBatches sha256 env namespaceId s).flatten (host, v))
    {events : List Event}
    (hevents : requestsOf events = passRequests sha256 userId env s parcels namespaceId)
    {answers : List (Option Answer)}
    (hrun : (Host.service P root place parsers).run host events = (host', answers))
    (hanswers : answers.filterMap id = passAnswers sha256 env s namespaceId) :
    let served := { env with uploadBatch := fun _ ↦ .ok () }
    ∃ journal', IsServed sha256 userId v.stored namespaceId served s v.journal journal' ∧
      Syncer.checkUploadOnce sha256 served namespaceId s =
        Syncer.checkUploadOnce sha256 env namespaceId s ∧
      Represents root place host'
        ⟨storeChunks v.store (Syncer.sentBatches sha256 env namespaceId s).flatten, journal'⟩ := by
  intro served
  obtain ⟨hforms, hboundaries, hbatches, hagree⟩ := hfits
  -- the commits come first
  obtain ⟨commits, uploads, rfl, hcommits, huploads⟩ := List.filterMap_eq_append_iff.mp hevents
  rw [Service.run_append] at hrun
  obtain ⟨hhost, rfl⟩ := Prod.mk.inj hrun
  obtain ⟨hfirst, hrep, hready⟩ := run_passEvents hplace hparsers h hready hagree commits
    (by
      intro r hr
      rw [requestsOf, hcommits] at hr
      obtain ⟨row, hrow, rfl⟩ := List.mem_map.mp hr
      exact ⟨fun _ ↦ ⟨alphanumeric_of_mem_sentIds hdigest _ s row.1, hforms row hrow⟩, trivial⟩)
  rw [requestsOf, hcommits] at hfirst hrep hready
  rw [List.filterMap_append, hfirst, passAnswers] at hanswers
  obtain ⟨hcommitted, huploaded⟩ := List.append_inj hanswers (by
    rw [Service.length_run, List.length_map, List.length_map])
  obtain ⟨journal', hserves, hvault⟩ := Vault.serves_of_run hcommitted
  rw [hvault] at hrep hready
  have halpha := alphanumeric_of_mem_sentBatches hdigest hreads hregistry hevicts hfs hserves
  -- then the batches
  obtain ⟨hsecond, hrep', -⟩ := run_passEvents hplace hparsers hrep hready hagree uploads
    (by
      intro r hr
      rw [requestsOf, huploads] at hr
      obtain ⟨batch, hbatch, rfl⟩ := List.mem_map.mp hr
      obtain ⟨hcontents, hsize⟩ := hbatches batch hbatch
      have hmem := List.fst_mem_of_mem_zipIdx hbatch
      refine ⟨fun _ ↦ ⟨hboundaries _, fun chunk hchunk ↦ ?_, hsize⟩,
        fun chunk hchunk ↦ List.mem_flatten.mpr ⟨batch.1, hmem, hchunk⟩⟩
      obtain ⟨hid, hne⟩ := halpha batch.1 hmem chunk hchunk
      exact ⟨hid, hne, hcontents chunk hchunk⟩)
  rw [requestsOf, huploads, Vault.run_uploads] at hsecond hrep'
  have haccepted : ∀ batch ∈ Syncer.sentBatches sha256 env namespaceId s,
      env.uploadBatch batch = .ok () := by
    intro batch hbatch
    have hsame := List.map_inj_left.mp (hsecond.symm.trans huploaded) batch hbatch
    exact (Answer.uploaded.inj hsame).symm
  refine ⟨journal', ⟨hquery, hregistry, hreads, fun _ ↦ rfl, serves_with hserves⟩, ?_, hhost ▸ hrep'⟩
  exact Syncer.checkUploadOnce_congr fun batch hbatch ↦ (haccepted batch hbatch).symm

end Passes

/-! ## 5. An example -/

def recipeParcels (_ : Nat) : Parcel := ⟨zeroUuid, [3, 50], fun _ ↦ none⟩

/-- The first upload pass of the device that has the recipe. -/
def recipeRequests : List Request :=
  passRequests Chunker.recipeDigest 1 Fleet.recipeFirst Fleet.recipeIndexed recipeParcels 1

/-- The chunk lands after the batch has been answered. -/
def recipeEvents : List Event := recipeRequests.map .request ++ [.lands 0]

def recipeHost : Host (Place Name) :=
  ((Host.service (Place Name) uploadDir (·.placeFrom []) plainParsers).run Host.empty
    recipeEvents).1

theorem sentBatches_recipeFirst :
    Syncer.sentBatches Chunker.recipeDigest Fleet.recipeFirst 1 Fleet.recipeIndexed =
      [[Fleet.recipeChunk]] := by
  decide +kernel

theorem recipeRequests_eq : recipeRequests =
    [.commit 1 "a.cook".toList false "87428fc522".toList,
      .upload zeroUuid [Fleet.recipeChunk] [3, 50] fun _ ↦ none] := by
  have hids : Syncer.sentIds Chunker.recipeDigest (Fleet.recipeFirst.reads 0) Fleet.recipeIndexed
      Fleet.recipeRow = "87428fc522".toList := by decide +kernel
  rw [recipeRequests, passRequests, Fleet.pending_recipeIndexed, sentBatches_recipeFirst]
  simp only [List.zipIdx_singleton, List.map_singleton, commitRequest, hids]
  rfl

theorem recipeRequests_fit :
    FitsServer Chunker.recipeDigest Fleet.recipeFirst Fleet.recipeIndexed recipeParcels 1 where
  forms := by
    rw [Fleet.pending_recipeIndexed]
    decide +kernel
  boundaries _ := by
    change IsBoundary zeroUuid.boundary
    decide
  batches := by
    rw [sentBatches_recipeFirst]
    intro batch hbatch
    rw [List.zipIdx_singleton, List.mem_singleton] at hbatch
    rw [hbatch, length_uploadBatchBody]
    decide +kernel
  agree := by
    rw [sentBatches_recipeFirst]
    intro a ha b hb _
    rw [List.mem_singleton.mp ha, List.mem_singleton.mp hb]

theorem requestsOf_recipeEvents : requestsOf recipeEvents = recipeRequests := by
  have hrequests : ∀ requests : List Request, requestsOf (requests.map .request ++ [.lands 0]) =
      requests := by
    intro requests
    rw [requestsOf, List.filterMap_append, List.filterMap_map]
    exact (List.append_nil _).trans List.filterMap_some
  exact hrequests recipeRequests

theorem isReady_recipe : IsReady uploadDir (·.placeFrom [])
    (Syncer.sentBatches Chunker.recipeDigest Fleet.recipeFirst 1 Fleet.recipeIndexed).flatten
      ((Host.empty : Host (Place Name)), Vault.empty) :=
  fun chunk _ ↦ .inl (isQuiet_of_late rfl chunk.1)

theorem answers_recipeEvents :
    ((Host.service (Place Name) uploadDir (·.placeFrom []) plainParsers).run Host.empty
      recipeEvents).2.filterMap id =
        passAnswers Chunker.recipeDigest Fleet.recipeFirst Fleet.recipeIndexed 1 := by
  have hrequests : ∀ r ∈ requestsOf recipeEvents, IsPassRequest
      (Syncer.sentBatches Chunker.recipeDigest Fleet.recipeFirst 1 Fleet.recipeIndexed).flatten
        r := by
    rw [requestsOf_recipeEvents, recipeRequests_eq, sentBatches_recipeFirst]
    simp only [List.forall_mem_cons, List.not_mem_nil, false_imp_iff, implies_true, and_true]
    refine ⟨⟨fun _ ↦ ⟨by decide, by decide +kernel⟩, trivial⟩,
      fun _ ↦ ⟨recipeRequests_fit.boundaries 0, ?_, ?_⟩, fun _ hchunk ↦ hchunk⟩
    · intro chunk hchunk
      rw [List.mem_singleton.mp hchunk]
      exact ⟨by decide, by decide, by decide +kernel⟩
    · rw [length_uploadBatchBody]
      decide
  have hanswers := (run_passEvents separates_uploadDir isSound_plainParsers represents_empty
    isReady_recipe recipeRequests_fit.agree recipeEvents hrequests).1
  have hvault : (Vault.requestService.run Vault.empty recipeRequests).2 =
      [.committed (.ok (.needChunks "87428fc522".toList)), .uploaded (.ok ())] := by
    rw [recipeRequests_eq]
    decide +kernel
  have hcommit : Fleet.recipeFirst.commit 0 Fleet.recipeRow (Syncer.sentIds Chunker.recipeDigest
      (Fleet.recipeFirst.reads 0) Fleet.recipeIndexed Fleet.recipeRow) =
        .ok (.needChunks "87428fc522".toList) := by decide +kernel
  rw [requestsOf_recipeEvents] at hanswers
  refine hanswers.trans (hvault.trans ?_)
  rw [passAnswers, Fleet.pending_recipeIndexed, sentBatches_recipeFirst]
  simp only [List.zipIdx_singleton, List.map_singleton, commitAnswer, hcommit]
  rfl

theorem isServed_of_host_recipe :
    ∃ journal', IsServed Chunker.recipeDigest 1 Vault.empty.stored 1
        { Fleet.recipeFirst with uploadBatch := fun _ ↦ .ok () } Fleet.recipeIndexed .empty journal' ∧
      Syncer.checkUploadOnce Chunker.recipeDigest
          { Fleet.recipeFirst with uploadBatch := fun _ ↦ .ok () } 1 Fleet.recipeIndexed =
        Syncer.checkUploadOnce Chunker.recipeDigest Fleet.recipeFirst 1 Fleet.recipeIndexed ∧
      Represents uploadDir (·.placeFrom []) recipeHost
        ⟨storeChunks (fun _ ↦ none) [Fleet.recipeChunk], journal'⟩ := by
  have hreadable : ∀ f ∈ Fleet.recipeIndexed.registry.updatedLocally 1,
      Syncer.IsReadable Fleet.recipeIndexed f := by
    rw [Fleet.pending_recipeIndexed]
    intro f hf
    rw [List.mem_singleton.mp hf]
    exact fun _ ↦ by decide +kernel
  have h := isServed_of_host Chunker.isHexDigest_recipeDigest separates_uploadDir
    isSound_plainParsers represents_empty rfl (fun _ ↦ rfl) (fun _ ↦ rfl) (fun _ _ ↦ rfl) hreadable
    recipeRequests_fit isReady_recipe requestsOf_recipeEvents rfl answers_recipeEvents
  rw [sentBatches_recipeFirst] at h
  exact h

end CooklangSync.System
