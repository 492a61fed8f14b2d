import CooklangSync.Client.Batches
import CooklangSync.Client.Bodies
import CooklangSync.Client.Collect
import CooklangSync.Client.Cursor
import CooklangSync.Client.Hashing
import CooklangSync.Server.Chunks
import CooklangSync.Server.Metadata

/-!
# Limits — the client's requests and the server's caps on bodies

The client bounds the contents of a batch, the server the whole body; the client bounds no form at
all.  Which batches and forms fit is decided by the number of chunks and the lengths of their ids as
well as by their contents.
-/

namespace CooklangSync.System

open Theory
open Client (Chunk Uuid)

/-! ## 1. Batches -/

/-- The body of the batch stays below the server's limit, which then cuts nothing off it. -/
def IsTakenWhole (batch : List Chunk) : Prop :=
  ∀ uuid : Uuid, (Client.uploadBatchBody uuid.boundary batch).length < Server.dataFormLimit ∧
    ∀ pieces : List Bytes, pieces.flatten = Client.uploadBatchBody uuid.boundary batch →
      Server.cappedDataStream Server.dataFormLimit 0 (pieces.map some) = pieces.map some

/-- Every run of chunks that end up in one batch takes less than the limit: a batch ends with the
chunk that brings its contents above `maxUploadSize`. -/
def BatchesFit (chunks : List Chunk) : Prop :=
  ∀ (before : List (List Chunk)) (batch after : List Chunk),
    chunks = before.flatten ++ batch ++ after →
    (∀ full ∈ before, IsFull Client.contentSize Client.UploadQueue.maxUploadSize full) →
    CanShare Client.contentSize Client.UploadQueue.maxUploadSize batch →
    (batch.map Client.partSize).sum + 66 < Server.dataFormLimit

theorem cappedDataStream_of_lt {limit seen : Nat} {pieces : List Bytes}
    (h : seen + pieces.flatten.length < limit) :
    Server.cappedDataStream limit seen (pieces.map some) = pieces.map some := by
  induction pieces generalizing seen with
  | nil => rfl
  | cons bytes rest ih =>
    rw [List.flatten_cons, List.length_append] at h
    rw [List.map_cons, Server.cappedDataStream, ih (by omega)]
    rw [if_neg (by omega)]

theorem isTakenWhole_iff (batch : List Chunk) :
    IsTakenWhole batch ↔ (batch.map Client.partSize).sum + 66 < Server.dataFormLimit := by
  have huuid : Uuid := ⟨List.replicate 36 '0', by decide⟩
  constructor
  · intro h
    rw [← Client.length_uploadBatchBody huuid batch]
    exact (h huuid).1
  · intro h uuid
    have hlength := Client.length_uploadBatchBody uuid batch
    refine ⟨by rw [hlength]; exact h, fun pieces hpieces ↦ ?_⟩
    apply cappedDataStream_of_lt
    rw [hpieces, hlength]
    omega

theorem size_le_of_prefix {l r : List Chunk} (h : l <+: r) :
    (l.map Client.partSize).sum ≤ (r.map Client.partSize).sum := by
  obtain ⟨rest, rfl⟩ := h
  rw [List.map_append, List.sum_append]
  omega

theorem forall_batches_iff {q : Client.UploadQueue} {chunks : List Chunk} (h : q.Holds chunks) :
    (∀ batch ∈ q.batches, IsTakenWhole batch) ↔ BatchesFit chunks := by
  have hsmaller : ∀ l r : List Chunk, l <+: r →
      (r.map Client.partSize).sum + 66 < Server.dataFormLimit →
      (l.map Client.partSize).sum + 66 < Server.dataFormLimit := by
    intro l r hpre hr
    have hle := size_le_of_prefix hpre
    omega
  have hempty : IsTakenWhole [] := (isTakenWhole_iff []).mpr (by decide)
  rw [BatchesFit, ← h.batching.forall_iff hsmaller]
  constructor
  · intro hall batch hbatch
    rw [← isTakenWhole_iff]
    by_cases hnil : batch = []
    · rw [hnil]
      exact hempty
    · exact hall batch (List.mem_filter.mpr ⟨hbatch, by simpa using hnil⟩)
  · intro hall batch hbatch
    rw [isTakenWhole_iff]
    exact hall batch (List.mem_filter.mp hbatch).1

/-- The server takes all batches of a pass whole exactly when the chunks asked for can be cut into
batches that fit. -/
theorem sentBatches_taken_iff (sha256 : Bytes → Text) (env : Client.Syncer.UploadEnv)
    (namespaceId : Int) (s : Client.ClientState) :
    (∀ upload, ∀ batch ∈ Client.Syncer.sentBatches sha256 { env with uploadBatch := upload }
        namespaceId s, IsTakenWhole batch) ↔
      (env.queryFails = false → ∀ chunks,
        Client.Syncer.askedChunks sha256 env 0 s (s.registry.updatedLocally namespaceId) =
          .ok chunks → BatchesFit chunks) := by
  have hspec := fun upload ↦
    Client.Syncer.sentBatches_spec sha256 { env with uploadBatch := upload } namespaceId s
  simp only [Client.Syncer.askedChunks_with] at hspec
  constructor
  · intro hall hquery chunks hasked
    -- all batches are sent when all are received
    have hsent := hall fun _ ↦ .ok ()
    rcases hspec fun _ ↦ .ok () with ⟨-, hnone⟩ | ⟨chunks', q, -, hasked', hholds, heq⟩
    · exact absurd hasked (hnone hquery chunks)
    · rw [hasked] at hasked'
      rw [heq, Client.Syncer.handedBatches_of_accepted (fun _ ↦ rfl)] at hsent
      rw [Outcome.ok.inj hasked']
      exact (forall_batches_iff hholds).mp hsent
  · intro hfit upload batch hbatch
    rcases hspec upload with ⟨hnil, -⟩ | ⟨chunks, q, hquery, hasked, hholds, heq⟩
    · rw [hnil] at hbatch
      cases hbatch
    · rw [heq] at hbatch
      have hmem := (Client.Syncer.handedBatches_prefix _ q.batches).subset hbatch
      exact (forall_batches_iff hholds).mpr (hfit hquery chunks hasked) batch hmem

/-! ## 2. Blank lines -/

-- SHA-256 of a line feed.
def newlineDigest (_ : Bytes) : Text :=
  "01ba4719c80b6fe911b091a7c05124b64eeece964e09c058ef8f9805daca546b".toList

theorem isHexDigest_newlineDigest : Client.IsHexDigest newlineDigest := by
  have hdigits : (newlineDigest []).length = 64 ∧
      (newlineDigest []).all ("0123456789abcdef".toList.contains ·) = true := by
    unfold newlineDigest
    rw [String.toList_ofList, String.toList_ofList]
    decide
  exact Client.isHexDigest_of_all fun _ ↦ hdigits

def newlineId : Text := "01ba4719c8".toList

theorem hash_newline : Client.Chunker.hash newlineDigest [10] 10 = newlineId := by
  unfold Client.Chunker.hash newlineDigest newlineId
  rw [String.toList_ofList, String.toList_ofList]
  rfl

def blankLines (n : Nat) : Bytes := List.replicate n 10

/-- A storage directory with one recipe, which is not committed and has nothing but blank lines. -/
def blankRecipe (n : Nat) : Client.ClientState where
  registry := .insert .empty (fun id ↦ ⟨id, none, false, "a.cook".toList, n, ⟨0, 0⟩, 1⟩) (fun _ ↦ rfl)
  chunker := Client.Chunker.rootChunker
  disk := FileTree.root.put (toUtf8 "a.cook".toList) [] (.file ⟨blankLines n, ⟨0, 0⟩⟩)

theorem readLines_blankLines (n : Nat) :
    Client.Chunker.readLines (blankLines n) = List.replicate n [10] := by
  induction n with
  | zero => rfl
  | succ n ih =>
    rw [blankLines, List.replicate_succ, Client.Chunker.readLines, if_pos rfl]
    rw [blankLines] at ih
    rw [ih, List.replicate_succ]

theorem readFile_blankRecipe (n : Nat) :
    (blankRecipe n).disk.readFile ((blankRecipe n).chunker.fullPath "a.cook".toList) =
      some ⟨blankLines n, ⟨0, 0⟩⟩ := by
  have hopen : FileTree.creatable (.root : Client.Disk)
      (Client.Chunker.rootChunker.fullPath "a.cook".toList) =
        some (toUtf8 "a.cook".toList, []) := by decide
  exact FileTree.readFile_put hopen _

theorem updatedLocally_blankRecipe (n : Nat) :
    (blankRecipe n).registry.updatedLocally 1 =
      [⟨1, none, false, "a.cook".toList, n, ⟨0, 0⟩, 1⟩] := by
  rfl

/-- The answers of a server that has no chunk yet. -/
def asksForAll : Client.Syncer.UploadEnv where
  queryFails := false
  reads _ := ⟨fun _ ↦ 1, none⟩
  commit _ _ chunkIds := .ok (.needChunks chunkIds)
  registryFails _ := false
  uploadBatch _ := .ok ()

theorem hashify_blankRecipe (n : Nat) :
    (blankRecipe n).chunker.hashify newlineDigest (blankRecipe n).disk ⟨fun _ ↦ 1, none⟩
        "a.cook".toList =
      (Client.Chunker.rootChunker.saveChunks newlineDigest 10 (List.replicate n [10]),
        .ok (List.replicate n newlineId)) := by
  have htext : Client.isText (parsePath "a.cook".toList) = true := by decide +kernel
  have hsize : Client.Chunker.hashSize "a.cook".toList = 10 := by decide +kernel
  have hpath : Client.Chunker.isHashable "a.cook".toList = true := by decide
  have hpieces : Client.Chunker.pieces ⟨fun _ ↦ 1, none⟩ "a.cook".toList (blankLines n) =
      List.replicate n [10] := by
    rw [Client.Chunker.pieces, if_pos htext, readLines_blankLines]
  rw [Client.Chunker.hashify_eq _ rfl hpath (readFile_blankRecipe n), Client.Chunker.chunkIds,
    hpieces, hsize, List.map_replicate, hash_newline]
  rfl

theorem hashFile_blankRecipe (n : Nat) :
    Client.Syncer.hashFile newlineDigest ⟨fun _ ↦ 1, none⟩ (blankRecipe n)
        ⟨1, none, false, "a.cook".toList, n, ⟨0, 0⟩, 1⟩ =
      (Client.Chunker.rootChunker.saveChunks newlineDigest 10 (List.replicate n [10]),
        .ok (List.intercalate [','] (List.replicate n newlineId))) := by
  rw [Client.Syncer.hashFile, if_neg Bool.false_ne_true, hashify_blankRecipe]

theorem readChunks_replicate {c : Client.Chunker} {id : Text} {data : Bytes}
    (h : c.readChunk id = .ok data) (n : Nat) :
    Client.Syncer.readChunks c (List.replicate n id) = .ok (List.replicate n (id, data)) := by
  induction n with
  | zero => rfl
  | succ n ih =>
    rw [List.replicate_succ, Client.Syncer.readChunks, h, ih]
    rfl

theorem readChunk_blankRecipe {n : Nat} (hn : 0 < n) :
    (Client.Chunker.rootChunker.saveChunks newlineDigest 10 (List.replicate n [10])).readChunk
      newlineId = .ok [10] := by
  have hsame : Client.Chunker.NoCollision newlineDigest 10 (List.replicate n [10]) := by
    intro data hdata data' hdata' _
    rw [List.eq_of_mem_replicate hdata, List.eq_of_mem_replicate hdata']
  have hmem : [10] ∈ List.replicate n ([10] : Bytes) := List.mem_replicate.mpr ⟨by omega, rfl⟩
  have hentry := Client.Chunker.entries_saveChunks
    (show Client.Chunker.rootChunker.EvictsNothing from fun _ _ ↦ rfl) hsame hmem
  rw [hash_newline] at hentry
  rw [Client.Chunker.readChunk, Client.InMemoryCache.get, hentry]
  rfl

theorem splitOn_blankRecipe {n : Nat} (hn : 0 < n) :
    (List.intercalate [','] (List.replicate n newlineId)).splitOn ',' =
      List.replicate n newlineId := by
  have hsplit := Client.Chunker.splitOn_join isHexDigest_newlineDigest 10 (List.replicate n [10])
  have hnonempty : List.replicate n ([10] : Bytes) ≠ [] := by
    rw [Ne, List.replicate_eq_nil_iff]
    omega
  rwa [if_neg hnonempty, List.map_replicate, hash_newline] at hsplit

theorem askedChunks_blankRecipe {n : Nat} (hn : 0 < n) :
    Client.Syncer.askedChunks newlineDigest asksForAll 0 (blankRecipe n)
      ((blankRecipe n).registry.updatedLocally 1) = .ok (List.replicate n (newlineId, [10])) := by
  have hchunks := readChunks_replicate (readChunk_blankRecipe hn) n
  rw [updatedLocally_blankRecipe, Client.Syncer.askedChunks, Client.Syncer.askedFor,
    show asksForAll.reads 0 = ⟨fun _ ↦ 1, none⟩ from rfl, hashFile_blankRecipe]
  simp only [asksForAll, Outcome.ok_bind, Client.Syncer.answeredChunks, splitOn_blankRecipe hn,
    hchunks, Client.Syncer.askedChunks, Outcome.pure_eq_ok, List.append_nil]

-- A recipe of 33 kB: each of its 33000 chunks takes 160 bytes of the body.
theorem sentBatches_overflow :
    ¬ ∀ (sha256 : Bytes → Text) (env : Client.Syncer.UploadEnv) (namespaceId : Int)
      (s : Client.ClientState),
      ∀ batch ∈ Client.Syncer.sentBatches sha256 env namespaceId s, IsTakenWhole batch := by
  intro h
  have hasked := askedChunks_blankRecipe (n := 33000) (by omega)
  have hsent := h newlineDigest asksForAll 1 (blankRecipe 33000)
  rcases Client.Syncer.sentBatches_spec newlineDigest asksForAll 1 (blankRecipe 33000) with
    ⟨-, hnone⟩ | ⟨chunks, q, -, hasked', hholds, heq⟩
  · exact hnone rfl _ hasked
  · rw [hasked] at hasked'
    rw [← Outcome.ok.inj hasked'] at hholds
    rw [heq, Client.Syncer.handedBatches_of_accepted (fun _ ↦ rfl)] at hsent
    have hfit := (forall_batches_iff hholds).mp hsent [] (List.replicate 33000 (newlineId, [10])) []
      (by rw [List.flatten_nil, List.nil_append, List.append_nil]) (by simp)
    rw [CanShare, totalWeight, List.dropLast_replicate, List.map_replicate, List.map_replicate,
      List.sum_replicate, List.sum_replicate] at hfit
    have hsize : Client.partSize (newlineId, [10]) = 160 := by decide
    have hcontent : Client.contentSize (newlineId, [10]) = 1 := rfl
    rw [hsize, hcontent] at hfit
    exact absurd (hfit (by decide)) (by decide)

/-! ## 3. Forms -/

/-- The newline characters, and one more line when the last has none. -/
def lineCount (content : Bytes) : Nat :=
  content.count 10 + if content.getLast? = none ∨ content.getLast? = some 10 then 0 else 1

theorem length_readLines (content : Bytes) :
    (Client.Chunker.readLines content).length = lineCount content := by
  induction content with
  | nil => rfl
  | cons b bs ih =>
    rw [Client.Chunker.readLines]
    cases bs with
    | nil =>
      by_cases hb : b = 10
      · simp [hb, lineCount, Client.Chunker.readLines]
      · simp [hb, lineCount, Client.Chunker.readLines]
    | cons c cs =>
      have hlast : (b :: c :: cs).getLast? = (c :: cs).getLast? := List.getLast?_cons_cons
      by_cases hb : b = 10
      · rw [if_pos hb, List.length_cons, ih, lineCount, lineCount, hlast, hb, List.count_cons_self]
        omega
      · rw [if_neg hb, lineCount, hlast, List.count_cons_of_ne hb, ← lineCount, ← ih]
        cases hlines : Client.Chunker.readLines (c :: cs) with
        | nil =>
          have hflatten := Client.Chunker.flatten_readLines (c :: cs)
          rw [hlines] at hflatten
          cases hflatten
        | cons line rest => rfl

theorem length_chunkIdsBody {sha256 : Bytes → Text} (hdigest : Client.IsHexDigest sha256)
    {env : Client.Chunker.ReadEnv} {path : Text} (htext : Client.isText (parsePath path) = true)
    (content : Bytes) :
    urlencodedLength (List.intercalate [','] (Client.Chunker.chunkIds sha256 env path content)) =
      10 * lineCount content + 3 * (lineCount content - 1) := by
  have hsize : Client.Chunker.hashSize path = 10 := by
    rw [Client.Chunker.hashSize, if_pos htext]
    rfl
  have hpieces : Client.Chunker.pieces env path content = Client.Chunker.readLines content := by
    rw [Client.Chunker.pieces, if_pos htext]
  have hid : ∀ line ∈ Client.Chunker.readLines content,
      urlencodedLength (Client.Chunker.hash sha256 line 10) = 10 := by
    intro line _
    rw [urlencodedLength_of_alphanumeric (Client.Chunker.alphanumeric_hash hdigest line 10),
      Client.Chunker.length_hash hdigest line (by omega)]
  have hcomma : urlencodedLength [','] = 3 := by decide +kernel
  have hids : ((Client.Chunker.readLines content).map
      (Client.Chunker.hash sha256 · 10)).map urlencodedLength =
        (Client.Chunker.readLines content).map fun _ ↦ 10 := by
    rw [List.map_map]
    exact List.map_congr_left hid
  rw [size_intercalate urlencodedLength_append, Client.Chunker.chunkIds, hpieces, hsize, hids,
    List.map_const', List.sum_replicate_nat, List.length_map, hcomma, length_readLines]
  omega

theorem length_downloadBatchBody_le_iff {ids : List Text} (hne : ids ≠ []) (limit : Nat) :
    (Client.downloadBatchBody ids).length ≤ limit ↔
      (ids.map fun id ↦ 17 + urlencodedLength id).sum ≤ limit + 1 := by
  have hpos := List.length_pos_iff.mpr hne
  have hsum : (ids.map fun id ↦ 17 + urlencodedLength id).sum =
      ids.length + (ids.map fun id ↦ 16 + urlencodedLength id).sum := by
    clear hne hpos
    induction ids with
    | nil => rfl
    | cons id rest ih =>
      rw [List.map_cons, List.sum_cons, ih, List.map_cons, List.sum_cons, List.length_cons]
      omega
  rw [Client.length_downloadBatchBody, hsum]
  omega

/-- The forms of a download and of the commit of a text file fit exactly when the ids the pass lacks
and the lines of the file are few enough. -/
theorem forms_fit_iff {sha256 : Bytes → Text} (hdigest : Client.IsHexDigest sha256) :
    (∀ (env : Client.Syncer.DownloadEnv)
      (list : Int → Outcome Client.SyncError (List Client.ResponseFileRecord)) (namespaceId : Int)
      (s : Client.ClientState) (ds : List Client.ResponseFileRecord),
      list (Client.Syncer.latestLocal env s namespaceId) = .ok ds →
      ((∀ ids, Client.Syncer.requestedIds sha256 env list namespaceId s = some ids →
          (Client.downloadBatchBody ids).length ≤ Server.Chunks.formLimit) ↔
        (Client.Syncer.AllHashed sha256 env.reads s.disk 0 s.chunker ds →
          ((Client.Syncer.lackedIds sha256 env.reads s.disk 0 s.chunker ds).map fun id ↦
            17 + urlencodedLength id).sum ≤ Server.Chunks.formLimit + 1))) ∧
    (∀ (env : Client.Chunker.ReadEnv) (s : Client.ClientState) (f : Client.FileRecord)
      (file : Client.FileData), env.failsAfter = none → f.deleted = false →
      Client.isText (parsePath f.path) = true →
      s.disk.readFile (s.chunker.fullPath f.path) = some file →
      ∃ c chunkIds, Client.Syncer.hashFile sha256 env s f = (c, .ok chunkIds) ∧
        ((Client.commitBody f.path f.deleted chunkIds).length ≤ Server.Metadata.formLimit ↔
          30 + 10 * lineCount file.content + 3 * (lineCount file.content - 1) +
            urlencodedLength f.path ≤ Server.Metadata.formLimit)) := by
  constructor
  · intro env list namespaceId s ds hlist
    constructor
    · intro hfits hall
      by_cases hnil : Client.Syncer.lackedIds sha256 env.reads s.disk 0 s.chunker ds = []
      · rw [hnil]
        exact Nat.zero_le _
      · have hsome := (Client.Syncer.requestedIds_eq_some_iff hlist).mpr ⟨hall, rfl, hnil⟩
        exact (length_downloadBatchBody_le_iff hnil _).mp (hfits _ hsome)
    · intro hfew ids hids
      obtain ⟨hall, rfl, hne⟩ := (Client.Syncer.requestedIds_eq_some_iff hlist).mp hids
      exact (length_downloadBatchBody_le_iff hne _).mpr (hfew hall)
  · intro env s f file hreads hlive htext hfile
    have hpath : Client.Chunker.isHashable f.path = true := by
      rw [Client.Chunker.isHashable, htext, Bool.true_or]
    have hhash : Client.Syncer.hashFile sha256 env s f =
        (s.chunker.saveChunks sha256 (Client.Chunker.hashSize f.path)
          (Client.Chunker.pieces env f.path file.content),
          .ok (List.intercalate [','] (Client.Chunker.chunkIds sha256 env f.path file.content))) := by
      simp only [Client.Syncer.hashFile, hlive, Bool.false_eq_true, if_false,
        Client.Chunker.hashify_eq s.chunker hreads hpath hfile]
    refine ⟨_, _, hhash, ?_⟩
    rw [hlive, Client.length_commitBody, length_chunkIdsBody hdigest htext, ← Nat.add_assoc]

theorem length_commitBody_blankRecipe (n : Nat) :
    (Client.commitBody "a.cook".toList false
      (List.intercalate [','] (List.replicate n newlineId))).length = 36 + n * 10 + (n - 1) * 3 := by
  have hcomma : urlencodedLength [','] = 3 := by decide
  have hid : urlencodedLength newlineId = 10 := by decide +kernel
  have hname : urlencodedLength "a.cook".toList = 6 := by decide +kernel
  rw [Client.length_commitBody, size_intercalate urlencodedLength_append, List.map_replicate,
    List.sum_replicate_nat, List.length_replicate, hid, hcomma, hname]
  omega

-- Two lines are committed, and one chunk is fetched for a recipe that is not there.
theorem forms_fit_blankRecipe :
    (∀ ids, Client.Syncer.requestedIds newlineDigest
        (Client.Syncer.deletionEnv false) (fun _ ↦ .ok [⟨1, "b.cook".toList, false, newlineId⟩]) 1
        (blankRecipe 2) = some ids →
      (Client.downloadBatchBody ids).length ≤ Server.Chunks.formLimit) ∧
    ∃ c chunkIds, Client.Syncer.hashFile newlineDigest ⟨fun _ ↦ 1, none⟩ (blankRecipe 2)
        ⟨1, none, false, "a.cook".toList, 2, ⟨0, 0⟩, 1⟩ = (c, .ok chunkIds) ∧
      (Client.commitBody "a.cook".toList false chunkIds).length ≤ Server.Metadata.formLimit := by
  obtain ⟨hdownload, hcommit⟩ := forms_fit_iff isHexDigest_newlineDigest
  constructor
  · apply (hdownload (Client.Syncer.deletionEnv false) _ 1 (blankRecipe 2)
      [⟨1, "b.cook".toList, false, newlineId⟩] rfl).mpr
    intro _
    decide +kernel
  · obtain ⟨c, chunkIds, hfile, hiff⟩ := hcommit ⟨fun _ ↦ 1, none⟩ (blankRecipe 2)
      ⟨1, none, false, "a.cook".toList, (2 : Nat), ⟨0, 0⟩, 1⟩ ⟨blankLines 2, ⟨0, 0⟩⟩ rfl rfl
      (by decide +kernel) (readFile_blankRecipe 2)
    exact ⟨c, chunkIds, hfile, hiff.mpr (by decide +kernel)⟩

-- A recipe of 90 kB: the id of each of its 90000 chunks takes 13 bytes of the body.
theorem forms_overflow :
    ¬ ∀ (sha256 : Bytes → Text), Client.IsHexDigest sha256 →
      (∀ (env : Client.Syncer.DownloadEnv)
        (list : Int → Outcome Client.SyncError (List Client.ResponseFileRecord)) (namespaceId : Int)
        (s : Client.ClientState) (ids : List Text),
        Client.Syncer.requestedIds sha256 env list namespaceId s = some ids →
        (Client.downloadBatchBody ids).length ≤ Server.Chunks.formLimit) ∧
      (∀ (env : Client.Chunker.ReadEnv) (s : Client.ClientState) (f : Client.FileRecord)
        (file : Client.FileData), env.failsAfter = none → f.deleted = false →
        Client.isText (parsePath f.path) = true →
        s.disk.readFile (s.chunker.fullPath f.path) = some file →
        file.content.length < 10 * 1000 * 1000 →
        ∀ c chunkIds, Client.Syncer.hashFile sha256 env s f = (c, .ok chunkIds) →
          (Client.commitBody f.path f.deleted chunkIds).length ≤ Server.Metadata.formLimit) := by
  intro h
  have hshort : (blankLines 90000).length < 10 * 1000 * 1000 := by
    rw [blankLines, List.length_replicate]
    omega
  have hcommit := (h newlineDigest isHexDigest_newlineDigest).2 ⟨fun _ ↦ 1, none⟩
    (blankRecipe 90000) ⟨1, none, false, "a.cook".toList, (90000 : Nat), ⟨0, 0⟩, 1⟩
    ⟨blankLines 90000, ⟨0, 0⟩⟩ rfl rfl (by decide +kernel) (readFile_blankRecipe 90000)
    hshort _ _ (hashFile_blankRecipe 90000)
  have hlength := length_commitBody_blankRecipe 90000
  have hle := hlength.symm.trans_le hcommit
  rw [Server.Metadata.formLimit] at hle
  omega

end CooklangSync.System
