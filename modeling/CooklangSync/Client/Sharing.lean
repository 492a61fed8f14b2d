import CooklangSync.Client.Batches
import CooklangSync.Client.Hashing

/-!
# Sharing — an upload pass that shares the client with the other loops

A pass locks the chunker for one row at a time.  Before the next row the other loops may have put
chunks into the cache or dropped them, and rewritten files; the queue is the pass's own.
-/

namespace CooklangSync.Client

open Theory

namespace Syncer

/-! ## 1. The pass -/

section Pass

variable (sha256 : Bytes → Text) (env : UploadEnv) (meanwhile : Nat → ClientState → ClientState)

/-- The rows of a pass; `meanwhile i` is what the other loops do before the row with index `i`. -/
def uploadFilesAmid : Nat → ClientState → UploadQueue → Bool → List FileRecord →
    ClientState × Outcome SyncError (UploadQueue × Bool)
  | _, s, q, allCommitted, [] => (s, .ok (q, allCommitted))
  | i, s, q, allCommitted, f :: fs =>
    match uploadFile sha256 env i (meanwhile i s) f q with
    | (s, .ok (q, accepted)) => uploadFilesAmid (i + 1) s q (allCommitted && accepted) fs
    | failure => failure

/-- A pass, with the batches it hands to `upload_batch`. -/
def checkUploadAmid (namespaceId : Int) (s : ClientState) :
    ClientState × List (List Chunk) × Outcome SyncError Bool :=
  if env.queryFails then (s, [], .err .dbQueryError)
  else
    match uploadFilesAmid sha256 env meanwhile 0 s .empty true
        (s.registry.updatedLocally namespaceId) with
    | (s, .ok (q, allCommitted)) =>
      (s, handedBatches env q.batches,
        match uploadBatches env q.batches with
        | .ok () => .ok allCommitted
        | .err e => .err e
        | .panic => .panic)
    | (s, .err e) => (s, [], .err e)
    | (s, .panic) => (s, [], .panic)

/-- What is asked for in a whole pass: row by row, the ids of the answer in order, each with its
content in the cache the row finds. -/
def askedAmid : Nat → ClientState → List FileRecord → Outcome SyncError (List Chunk)
  | _, _, [] => pure []
  | i, s, f :: fs => do
    let chunks ← askedFor sha256 env i (meanwhile i s) f
    let rest ← askedAmid (i + 1) (uploadFile sha256 env i (meanwhile i s) f .empty).1 fs
    pure (chunks ++ rest)

end Pass

section Results

variable {sha256 : Bytes → Text} {env : UploadEnv} {meanwhile : Nat → ClientState → ClientState}

-- Alone, a pass is the one of `check_upload_once`.
theorem uploadFilesAmid_alone (i : Nat) (s : ClientState) (q : UploadQueue) (allCommitted : Bool)
    (fs : List FileRecord) :
    uploadFilesAmid sha256 env (fun _ s ↦ s) i s q allCommitted fs =
      uploadFiles sha256 env i s q allCommitted fs := by
  induction fs generalizing i s q allCommitted with
  | nil => rfl
  | cons f fs ih =>
    rw [uploadFilesAmid, uploadFiles]
    cases uploadFile sha256 env i s f q with
    | mk s' outcome =>
      cases outcome with
      | ok p => exact ih (i + 1) s' p.1 _
      | err e => rfl
      | panic => rfl

theorem checkUploadAmid_alone (namespaceId : Int) (s : ClientState) :
    checkUploadAmid sha256 env (fun _ s ↦ s) namespaceId s =
      ((checkUploadOnce sha256 env namespaceId s).1, sentBatches sha256 env namespaceId s,
        (checkUploadOnce sha256 env namespaceId s).2) := by
  rw [checkUploadAmid, checkUploadOnce, sentBatches, uploadFilesAmid_alone]
  by_cases hquery : env.queryFails = true
  · rw [if_pos hquery, if_pos hquery, if_pos hquery]
  · rw [if_neg hquery, if_neg hquery, if_neg hquery]
    cases uploadFiles sha256 env 0 s .empty true (s.registry.updatedLocally namespaceId) with
    | mk s' outcome =>
      cases outcome with
      | ok p =>
        dsimp only
        cases uploadBatches env p.1.batches <;> rfl
      | err e => rfl
      | panic => rfl

/-! ## 2. What is sent -/

/-- The state after a row is a matter of the row and its answer. -/
theorem uploadFile_state (i : Nat) (s : ClientState) (f : FileRecord) (q q' : UploadQueue) :
    (uploadFile sha256 env i s f q).1 = (uploadFile sha256 env i s f q').1 := by
  rw [uploadFile, uploadFile]
  cases hashFile sha256 (env.reads i) s f with
  | mk c hashed =>
    cases hashed with
    | err e => rfl
    | panic => rfl
    | ok chunkIds =>
      dsimp only
      cases env.commit i f chunkIds with
      | err e => rfl
      | panic => rfl
      | ok answer =>
        cases answer with
        | success jid =>
          simp only [recordAnswer]
          split <;> rfl
        | needChunks ids =>
          simp only [recordAnswer, enqueueChunks_eq]
          cases readChunks c (ids.splitOn ',') <;> rfl

/-- A row that is through has put what it asks for at the end of the queue. -/
theorem uploadFile_ok {i : Nat} {s s' : ClientState} {f : FileRecord} {q q' : UploadQueue}
    {accepted : Bool} (h : uploadFile sha256 env i s f q = (s', .ok (q', accepted))) :
    ∃ chunks, askedFor sha256 env i s f = .ok chunks ∧ q' = chunks.foldl UploadQueue.push q := by
  have hqueue := (uploadFile_spec sha256 env i s f q).2.2
  rw [h] at hqueue
  obtain ⟨chunks, hasked, hq⟩ := Outcome.bind_eq_ok hqueue.symm
  exact ⟨chunks, hasked, (Outcome.ok.inj hq).symm⟩

theorem uploadFilesAmid_ok {i : Nat} {s s' : ClientState} {q q' : UploadQueue}
    {allCommitted allCommitted' : Bool} {fs : List FileRecord}
    (h : uploadFilesAmid sha256 env meanwhile i s q allCommitted fs =
      (s', .ok (q', allCommitted'))) :
    ∃ chunks, askedAmid sha256 env meanwhile i s fs = .ok chunks ∧
      q' = chunks.foldl UploadQueue.push q := by
  induction fs generalizing i s q allCommitted with
  | nil =>
    cases h
    exact ⟨[], rfl, rfl⟩
  | cons f fs ih =>
    rw [uploadFilesAmid] at h
    have hstate := @uploadFile_state sha256 env i (meanwhile i s) f .empty q
    cases hone : uploadFile sha256 env i (meanwhile i s) f q with
    | mk s₁ outcome =>
      rw [hone] at h hstate
      cases outcome with
      | err e => cases h
      | panic => cases h
      | ok p =>
        obtain ⟨chunks, hasked, hq⟩ := uploadFile_ok hone
        obtain ⟨rest, hrest, hq'⟩ := ih h
        refine ⟨chunks ++ rest, ?_, ?_⟩
        · rw [askedAmid, hasked, hstate, Outcome.ok_bind, hrest]
          rfl
        · rw [hq', hq, List.foldl_append]

theorem handedBatches_of_ok {batches : List (List Chunk)} (h : uploadBatches env batches = .ok ()) :
    handedBatches env batches = batches := by
  induction batches with
  | nil => rfl
  | cons batch rest ih =>
    rw [uploadBatches] at h
    obtain ⟨u, hbatch, hrest⟩ := Outcome.bind_eq_ok h
    rw [handedBatches, hbatch, ih hrest]

/-- A pass that reaches its end has sent what was asked for, in the order it was asked for and
nothing else; no batch is empty, and only its last chunk may make it too large. -/
theorem checkUploadAmid_sends {namespaceId : Int} {s s' : ClientState} {sent : List (List Chunk)}
    {allCommitted : Bool}
    (h : checkUploadAmid sha256 env meanwhile namespaceId s = (s', sent, .ok allCommitted)) :
    askedAmid sha256 env meanwhile 0 s (s.registry.updatedLocally namespaceId) =
        .ok sent.flatten ∧
      ∀ batch ∈ sent, batch ≠ [] ∧
        totalWeight contentSize batch.dropLast ≤ UploadQueue.maxUploadSize := by
  rw [checkUploadAmid] at h
  by_cases hquery : env.queryFails = true
  · rw [if_pos hquery] at h
    cases h
  · rw [if_neg hquery] at h
    cases hrun : uploadFilesAmid sha256 env meanwhile 0 s .empty true
        (s.registry.updatedLocally namespaceId) with
    | mk s₁ outcome =>
      rw [hrun] at h
      cases outcome with
      | err e => cases h
      | panic => cases h
      | ok p =>
        obtain ⟨chunks, hasked, hq⟩ := uploadFilesAmid_ok hrun
        have hholds := UploadQueue.holds_empty.foldl chunks
        rw [List.nil_append, ← hq] at hholds
        dsimp only at h
        cases hbatches : uploadBatches env p.1.batches with
        | err e => simp [hbatches] at h
        | panic => simp [hbatches] at h
        | ok u =>
          have hsent : sent = p.1.batches := by
            rw [handedBatches_of_ok hbatches] at h
            exact ((Prod.mk.inj (Prod.mk.inj h).2).1).symm
          rw [hsent, hholds.flatten_batches]
          refine ⟨hasked, fun batch hbatch ↦ ?_⟩
          obtain ⟨hmem, hne⟩ := List.mem_filter.mp hbatch
          exact ⟨by simpa using hne, hholds.batching.canShare_of_mem hmem⟩

end Results

-- Two recipes of one long line, which they share.
def longRows : List FileRecord :=
  [⟨1, none, false, "a.cook".toList, 3000001, ⟨0, 0⟩, 1⟩,
    ⟨2, none, false, "b.cook".toList, 3000001, ⟨0, 0⟩, 1⟩]

def sharedRegistry : Registry :=
  Registry.create .empty
    [⟨none, "a.cook".toList, false, 3000001, ⟨0, 0⟩, 1⟩,
      ⟨none, "b.cook".toList, false, 3000001, ⟨0, 0⟩, 1⟩]

def longLineClient (line : Bytes) : ClientState where
  registry := sharedRegistry
  chunker := Chunker.rootChunker
  disk := (FileTree.root.put (toUtf8 "a.cook".toList) [] (.file ⟨line, ⟨0, 0⟩⟩)).put
    (toUtf8 "b.cook".toList) [] (.file ⟨line, ⟨0, 0⟩⟩)

/-- A server that has no chunk. -/
def needsAll : UploadEnv where
  queryFails := false
  reads _ := ⟨fun _ ↦ 1, none⟩
  commit _ _ chunkIds := .ok (.needChunks chunkIds)
  registryFails _ := false
  uploadBatch _ := .ok ()

def dropCache (_ : Nat) (s : ClientState) : ClientState :=
  { s with chunker := Chunker.rootChunker }

theorem uploadFile_longRow {line : Bytes} (hlines : Chunker.readLines line = [line])
    {s : ClientState} (hdisk : s.disk = (longLineClient line).disk)
    (hchunker : s.chunker = Chunker.rootChunker) {f : FileRecord} (hf : f ∈ longRows) (i : Nat)
    (q : UploadQueue) :
    uploadFile (fun _ ↦ ['h']) needsAll i s f q =
      ({ s with chunker := Chunker.rootChunker.saveChunk ['h'] line },
        .ok (q.push (['h'], line), false)) := by
  have hread : ∀ f ∈ longRows, f.deleted = false ∧ isText (parsePath f.path) = true := by decide
  have hfile : (longLineClient line).disk.readFile (Chunker.rootChunker.fullPath f.path) =
      some ⟨line, ⟨0, 0⟩⟩ := by
    rw [longRows, List.mem_cons, List.mem_singleton] at hf
    rcases hf with rfl | rfl <;> rfl
  have hhash : hashFile (fun _ ↦ ['h']) (needsAll.reads i) s f =
      (Chunker.rootChunker.saveChunk ['h'] line, .ok ['h']) := by
    rw [hashFile, if_neg (by simp [(hread f hf).1]), hdisk, hchunker, Chunker.hashify]
    simp only [(hread f hf).2, if_true, Chunker.hashifyText, hfile, hlines]
    rfl
  rw [uploadFile, hhash]
  rfl

/-- The cache is dropped before each row, so the line is sent for both, and each fills a batch. -/
theorem checkUploadAmid_longLines {line : Bytes} (hlines : Chunker.readLines line = [line])
    (hlong : UploadQueue.maxUploadSize < line.length) :
    (checkUploadAmid (fun _ ↦ ['h']) needsAll dropCache 1 (longLineClient line)).2 =
      ([[(['h'], line)], [(['h'], line)]], .ok false) := by
  have hrows : (longLineClient line).registry.updatedLocally 1 = longRows := by
    show sharedRegistry.updatedLocally 1 = longRows
    decide
  have hpush : ∀ q : UploadQueue, q.push (['h'], line) =
      ⟨q.full ++ [q.last ++ [(['h'], line)]], [], 0⟩ :=
    fun q ↦ if_pos (Nat.lt_of_lt_of_le hlong (Nat.le_add_left _ _))
  have hqueue : ((UploadQueue.empty.push (['h'], line)).push (['h'], line)).batches =
      [[(['h'], line)], [(['h'], line)]] := by
    rw [hpush, hpush]
    rfl
  have hrow : ∀ (s : ClientState), s.disk = (longLineClient line).disk → ∀ f ∈ longRows,
      ∀ i q, uploadFile (fun _ ↦ ['h']) needsAll i (dropCache i s) f q =
        ({ s with chunker := Chunker.rootChunker.saveChunk ['h'] line },
          .ok (q.push (['h'], line), false)) :=
    fun s hdisk f hf i q ↦ uploadFile_longRow hlines (s := dropCache i s) hdisk rfl hf i q
  rw [checkUploadAmid, if_neg (by decide), hrows, longRows, uploadFilesAmid,
    hrow _ rfl _ List.mem_cons_self]
  dsimp only
  rw [uploadFilesAmid, hrow _ (by rfl) _ (List.mem_cons_of_mem _ List.mem_cons_self)]
  dsimp only [uploadFilesAmid]
  rw [hqueue]
  rfl

theorem readLines_replicate {n : Nat} (h : n ≠ 0) :
    Chunker.readLines (List.replicate n 97) = [List.replicate n 97] := by
  induction n with
  | zero => exact absurd rfl h
  | succ n ih =>
    rw [List.replicate_succ, Chunker.readLines, if_neg (by decide)]
    by_cases hn : n = 0
    · rw [hn]
      rfl
    · rw [ih hn]

theorem checkUploadAmid_sends_longLines :
    ∃ line : Bytes, UploadQueue.maxUploadSize < line.length ∧
      askedAmid (fun _ ↦ ['h']) needsAll dropCache 0 (longLineClient line)
          ((longLineClient line).registry.updatedLocally 1) =
        .ok [[(['h'], line)], [(['h'], line)]].flatten ∧
      ∀ batch ∈ [[(['h'], line)], [(['h'], line)]], batch ≠ [] ∧
        totalWeight contentSize batch.dropLast ≤ UploadQueue.maxUploadSize := by
  obtain ⟨line, hline⟩ : ∃ line : Bytes, line = List.replicate 3000001 97 := ⟨_, rfl⟩
  have hlines : Chunker.readLines line = [line] := by
    rw [hline]
    exact readLines_replicate (by decide)
  have hlong : UploadQueue.maxUploadSize < line.length := by
    rw [hline, List.length_replicate]
    decide
  exact ⟨line, hlong, checkUploadAmid_sends (Prod.ext rfl (checkUploadAmid_longLines hlines hlong))⟩

end Syncer

end CooklangSync.Client
