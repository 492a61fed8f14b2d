import CooklangSync.Client.Upload
import CooklangSync.Theory.Batches

/-!
# Batches — what an upload pass sends

The chunks that the answers to the commits ask for are sent in the order they were asked for, cut
into batches by the size of their contents.
-/

namespace CooklangSync.Client

open Theory

/-! ## 1. The queue -/

def contentSize (chunk : Chunk) : Nat := chunk.2.length

namespace UploadQueue

/-- The queue holds the chunks that were pushed, in order. -/
structure Holds (q : UploadQueue) (chunks : List Chunk) : Prop where
  batching : IsBatching contentSize maxUploadSize q.full q.last chunks
  size_eq : q.size = totalWeight contentSize q.last

theorem holds_empty : empty.Holds [] := ⟨IsBatching.nil, rfl⟩

theorem Holds.push {q : UploadQueue} {chunks : List Chunk} (h : q.Holds chunks) (chunk : Chunk) :
    (q.push chunk).Holds (chunks ++ [chunk]) := by
  have hsize : q.size + chunk.2.length = totalWeight contentSize (q.last ++ [chunk]) := by
    rw [totalWeight_append, h.size_eq]
    rfl
  have hbatching := h.batching.push chunk
  unfold UploadQueue.push
  rw [hsize]
  split at hbatching
  · rename_i hheavy
    rw [if_pos hheavy]
    exact ⟨hbatching, rfl⟩
  · rename_i hlight
    rw [if_neg hlight]
    exact ⟨hbatching, rfl⟩

theorem Holds.foldl {q : UploadQueue} {before : List Chunk} (h : q.Holds before)
    (chunks : List Chunk) : (chunks.foldl UploadQueue.push q).Holds (before ++ chunks) := by
  induction chunks generalizing q before with
  | nil => rwa [List.append_nil]
  | cons chunk rest ih =>
    have hrest := ih (h.push chunk)
    rwa [List.append_assoc] at hrest

/-- Nothing is lost on the way from the queue to the batches. -/
theorem Holds.flatten_batches {q : UploadQueue} {chunks : List Chunk} (h : q.Holds chunks) :
    q.batches.flatten = chunks := by
  rw [batches, List.flatten_filter_not_isEmpty, List.flatten_append, List.flatten_singleton,
    h.batching.flatten]

end UploadQueue

namespace Syncer

/-! ## 2. The chunks the answers ask for -/

def readChunks (c : Chunker) : List Text → Outcome SyncError (List Chunk)
  | [] => pure []
  | chunkId :: rest => do
    let data ← c.readChunk chunkId
    let chunks ← readChunks c rest
    pure ((chunkId, data) :: chunks)

/-- The chunks an answer asks for, with the contents in the cache. -/
def answeredChunks (registryFails : Bool) (c : Chunker) :
    CommitResultStatus → Outcome SyncError (List Chunk)
  | .success _ => if registryFails then .err .dbQueryError else .ok []
  | .needChunks chunks => readChunks c (chunks.splitOn ',')

/-- The chunks the answer to the commit of a row asks for; or what ends the pass at that row. -/
def askedFor (sha256 : Bytes → Text) (env : UploadEnv) (i : Nat) (s : ClientState)
    (f : FileRecord) : Outcome SyncError (List Chunk) :=
  match hashFile sha256 (env.reads i) s f with
  | (_, .err e) => .err e
  | (_, .panic) => .panic
  | (c, .ok chunkIds) => do
    let answer ← env.commit i f chunkIds
    answeredChunks (env.registryFails i) c answer

/-- The state once the file of a row is hashed. -/
def warmedUp (sha256 : Bytes → Text) (env : UploadEnv) (i : Nat) (s : ClientState)
    (f : FileRecord) : ClientState :=
  { s with chunker := (hashFile sha256 (env.reads i) s f).1 }

/-- What is asked for in a whole pass, the row with index `i` first. -/
def askedChunks (sha256 : Bytes → Text) (env : UploadEnv) :
    Nat → ClientState → List FileRecord → Outcome SyncError (List Chunk)
  | _, _, [] => pure []
  | i, s, f :: fs => do
    let chunks ← askedFor sha256 env i s f
    let rest ← askedChunks sha256 env (i + 1) (warmedUp sha256 env i s f) fs
    pure (chunks ++ rest)

theorem enqueueChunks_eq (c : Chunker) (q : UploadQueue) (ids : List Text) :
    enqueueChunks c q ids = (do
      let chunks ← readChunks c ids
      pure (chunks.foldl UploadQueue.push q)) := by
  induction ids generalizing q with
  | nil => rfl
  | cons id rest ih =>
    rw [enqueueChunks, readChunks]
    cases c.readChunk id with
    | ok data =>
      rw [Outcome.ok_bind, Outcome.ok_bind, ih]
      cases readChunks c rest with
      | ok chunks => rfl
      | err e => rfl
      | panic => rfl
    | err e => rfl
    | panic => rfl

/-- One row: what is asked for goes to the queue. -/
theorem uploadFile_spec (sha256 : Bytes → Text) (env : UploadEnv) (i : Nat) (s : ClientState)
    (f : FileRecord) (q : UploadQueue) :
    (uploadFile sha256 env i s f q).1.disk = s.disk ∧
      (uploadFile sha256 env i s f q).1.chunker = (hashFile sha256 (env.reads i) s f).1 ∧
      (do
        let p ← (uploadFile sha256 env i s f q).2
        pure p.1) =
      (do
        let chunks ← askedFor sha256 env i s f
        pure (chunks.foldl UploadQueue.push q)) := by
  rw [uploadFile, askedFor]
  cases hashFile sha256 (env.reads i) s f with
  | mk c hashed =>
    cases hashed with
    | err e => exact ⟨rfl, rfl, rfl⟩
    | panic => exact ⟨rfl, rfl, rfl⟩
    | ok chunkIds =>
      simp only
      cases env.commit i f chunkIds with
      | err e => exact ⟨rfl, rfl, rfl⟩
      | panic => exact ⟨rfl, rfl, rfl⟩
      | ok answer =>
        cases answer with
        | success jid =>
          simp only [recordAnswer, answeredChunks, Outcome.ok_bind]
          by_cases hfails : env.registryFails i = true
          · simp [hfails]
          · simp [hfails]
        | needChunks ids =>
          simp only [recordAnswer, answeredChunks, Outcome.ok_bind, enqueueChunks_eq]
          cases readChunks c (ids.splitOn ',') with
          | ok chunks => exact ⟨rfl, rfl, rfl⟩
          | err e => exact ⟨rfl, rfl, rfl⟩
          | panic => exact ⟨rfl, rfl, rfl⟩

theorem hashFile_congr (sha256 : Bytes → Text) (env : Chunker.ReadEnv) {s s' : ClientState}
    (hdisk : s'.disk = s.disk) (hchunker : s'.chunker = s.chunker) (f : FileRecord) :
    hashFile sha256 env s' f = hashFile sha256 env s f := by
  rw [hashFile, hashFile, hchunker, hdisk]

-- Setting a jid changes nothing that is hashed.
theorem askedChunks_congr (sha256 : Bytes → Text) (env : UploadEnv) (i : Nat)
    {s s' : ClientState} (hdisk : s'.disk = s.disk) (hchunker : s'.chunker = s.chunker)
    (fs : List FileRecord) :
    askedChunks sha256 env i s' fs = askedChunks sha256 env i s fs := by
  induction fs generalizing i s s' with
  | nil => rfl
  | cons f fs ih =>
    have hhash := hashFile_congr sha256 (env.reads i) hdisk hchunker f
    have hrest : askedChunks sha256 env (i + 1) (warmedUp sha256 env i s' f) fs =
        askedChunks sha256 env (i + 1) (warmedUp sha256 env i s f) fs :=
      ih (i + 1) hdisk (congrArg Prod.fst hhash)
    rw [askedChunks, askedChunks, askedFor, askedFor, hhash, hrest]

/-- All rows: the queue holds what was asked for. -/
theorem uploadFiles_spec (sha256 : Bytes → Text) (env : UploadEnv) (i : Nat) (s : ClientState)
    (q : UploadQueue) (allCommitted : Bool) (fs : List FileRecord) :
    (do
      let p ← (uploadFiles sha256 env i s q allCommitted fs).2
      pure p.1) =
    (do
      let chunks ← askedChunks sha256 env i s fs
      pure (chunks.foldl UploadQueue.push q)) := by
  induction fs generalizing i s q allCommitted with
  | nil => rfl
  | cons f fs ih =>
    obtain ⟨hdisk, hchunker, hqueue⟩ := uploadFile_spec sha256 env i s f q
    rw [uploadFiles, askedChunks]
    cases hone : uploadFile sha256 env i s f q with
    | mk s' outcome =>
      rw [hone] at hdisk hchunker hqueue
      cases hasked : askedFor sha256 env i s f with
      | ok chunks =>
        rw [hasked] at hqueue
        cases outcome with
        | ok p =>
          obtain ⟨q', accepted⟩ := p
          have hq' : q' = chunks.foldl UploadQueue.push q := Outcome.ok.inj hqueue
          simp only [Outcome.ok_bind]
          have hrest : askedChunks sha256 env (i + 1) s' fs =
              askedChunks sha256 env (i + 1) (warmedUp sha256 env i s f) fs :=
            askedChunks_congr sha256 env (i + 1) (s := warmedUp sha256 env i s f) hdisk hchunker fs
          rw [ih (i + 1) s' q' _, hrest]
          cases askedChunks sha256 env (i + 1) (warmedUp sha256 env i s f) fs with
          | ok rest => simp [hq']
          | err e => rfl
          | panic => rfl
        | err e => cases hqueue
        | panic => cases hqueue
      | err e =>
        rw [hasked] at hqueue
        cases outcome with
        | ok p => cases hqueue
        | err e' => exact hqueue
        | panic => cases hqueue
      | panic =>
        rw [hasked] at hqueue
        cases outcome with
        | ok p => cases hqueue
        | err e' => cases hqueue
        | panic => rfl

/-! ## 3. What is sent -/

-- How batches are received plays no part while the rows are taken.
theorem uploadFiles_with (sha256 : Bytes → Text) (env : UploadEnv)
    (upload : List Chunk → Outcome SyncError Unit) (i : Nat) (s : ClientState) (q : UploadQueue)
    (allCommitted : Bool) (fs : List FileRecord) :
    uploadFiles sha256 { env with uploadBatch := upload } i s q allCommitted fs =
      uploadFiles sha256 env i s q allCommitted fs := by
  induction fs generalizing i s q allCommitted with
  | nil => rfl
  | cons f fs ih =>
    have hone : uploadFile sha256 { env with uploadBatch := upload } i s f q =
        uploadFile sha256 env i s f q := rfl
    rw [uploadFiles, uploadFiles, hone]
    cases uploadFile sha256 env i s f q with
    | mk s' outcome =>
      cases outcome with
      | ok p => exact ih (i + 1) s' p.1 _
      | err e => rfl
      | panic => rfl

theorem askedChunks_with (sha256 : Bytes → Text) (env : UploadEnv)
    (upload : List Chunk → Outcome SyncError Unit) (i : Nat) (s : ClientState)
    (fs : List FileRecord) :
    askedChunks sha256 { env with uploadBatch := upload } i s fs =
      askedChunks sha256 env i s fs := by
  induction fs generalizing i s with
  | nil => rfl
  | cons f fs ih =>
    have hone : askedFor sha256 { env with uploadBatch := upload } i s f =
        askedFor sha256 env i s f := rfl
    rw [askedChunks, askedChunks, hone, ih]
    rfl

/-- The batches that are handed over, up to the first that fails. -/
def handedBatches (env : UploadEnv) : List (List Chunk) → List (List Chunk)
  | [] => []
  | batch :: rest =>
    match env.uploadBatch batch with
    | .ok () => batch :: handedBatches env rest
    | _ => [batch]

/-- The batches a pass hands to `upload_batch`. -/
def sentBatches (sha256 : Bytes → Text) (env : UploadEnv) (namespaceId : Int) (s : ClientState) :
    List (List Chunk) :=
  if env.queryFails then []
  else
    match (uploadFiles sha256 env 0 s .empty true (s.registry.updatedLocally namespaceId)).2 with
    | .ok (q, _) => handedBatches env q.batches
    | _ => []

theorem handedBatches_prefix (env : UploadEnv) (batches : List (List Chunk)) :
    handedBatches env batches <+: batches := by
  induction batches with
  | nil => exact List.prefix_refl []
  | cons batch rest ih =>
    rw [handedBatches]
    split
    · exact List.cons_prefix_cons.mpr ⟨rfl, ih⟩
    · exact List.cons_prefix_cons.mpr ⟨rfl, List.nil_prefix⟩

theorem handedBatches_of_accepted {env : UploadEnv} (h : ∀ batch, env.uploadBatch batch = .ok ())
    (batches : List (List Chunk)) : handedBatches env batches = batches := by
  induction batches with
  | nil => rfl
  | cons batch rest ih =>
    rw [handedBatches, h batch, ih]

theorem uploadBatches_congr {env env' : UploadEnv} {batches : List (List Chunk)}
    (h : ∀ batch ∈ handedBatches env batches, env'.uploadBatch batch = env.uploadBatch batch) :
    uploadBatches env' batches = uploadBatches env batches := by
  induction batches with
  | nil => rfl
  | cons batch rest ih =>
    rw [handedBatches] at h
    rw [uploadBatches, uploadBatches]
    cases hbatch : env.uploadBatch batch with
    | ok u =>
      rw [hbatch] at h
      rw [h batch (by simp), hbatch, Outcome.ok_bind, Outcome.ok_bind]
      exact ih fun b hb ↦ h b (List.mem_cons_of_mem batch hb)
    | err e =>
      rw [hbatch] at h
      rw [h batch (by simp), hbatch]
      rfl
    | panic =>
      rw [hbatch] at h
      rw [h batch (by simp), hbatch]
      rfl

/-- A pass depends on the answers to the batches it sends, and on no others. -/
theorem checkUploadOnce_congr {sha256 : Bytes → Text} {env : UploadEnv} {namespaceId : Int}
    {s : ClientState} {upload : List Chunk → Outcome SyncError Unit}
    (h : ∀ batch ∈ sentBatches sha256 env namespaceId s, upload batch = env.uploadBatch batch) :
    checkUploadOnce sha256 { env with uploadBatch := upload } namespaceId s =
      checkUploadOnce sha256 env namespaceId s := by
  have hfiles := uploadFiles_with sha256 env upload 0 s .empty true
    (s.registry.updatedLocally namespaceId)
  rw [checkUploadOnce, checkUploadOnce, hfiles]
  rw [sentBatches] at h
  by_cases hquery : env.queryFails = true
  · rw [if_pos hquery, if_pos hquery]
  · rw [if_neg hquery] at h ⊢
    rw [if_neg hquery]
    cases hrun : uploadFiles sha256 env 0 s .empty true (s.registry.updatedLocally namespaceId) with
    | mk s' outcome =>
      cases outcome with
      | ok p =>
        rw [hrun] at h
        have hbatches : uploadBatches { env with uploadBatch := upload } p.1.batches =
            uploadBatches env p.1.batches := uploadBatches_congr h
        simp only [hbatches]
      | err e => rfl
      | panic => rfl

/-- Nothing is sent unless all rows are through; then it is what was asked for. -/
theorem sentBatches_spec (sha256 : Bytes → Text) (env : UploadEnv) (namespaceId : Int)
    (s : ClientState) :
    (sentBatches sha256 env namespaceId s = [] ∧
      (env.queryFails = false → ∀ chunks,
        askedChunks sha256 env 0 s (s.registry.updatedLocally namespaceId) ≠ .ok chunks)) ∨
    ∃ (chunks : List Chunk) (q : UploadQueue), env.queryFails = false ∧
      askedChunks sha256 env 0 s (s.registry.updatedLocally namespaceId) = .ok chunks ∧
      q.Holds chunks ∧ sentBatches sha256 env namespaceId s = handedBatches env q.batches := by
  have hqueue := uploadFiles_spec sha256 env 0 s .empty true (s.registry.updatedLocally namespaceId)
  by_cases hquery : env.queryFails = true
  · refine .inl ⟨?_, fun h ↦ ?_⟩
    · rw [sentBatches, if_pos hquery]
    · rw [hquery] at h
      cases h
  · rw [sentBatches, if_neg hquery]
    cases hrun : (uploadFiles sha256 env 0 s .empty true
        (s.registry.updatedLocally namespaceId)).2 with
    | ok p =>
      rw [hrun] at hqueue
      obtain ⟨chunks, hasked, hq⟩ := Outcome.bind_eq_ok hqueue.symm
      have hholds := UploadQueue.holds_empty.foldl chunks
      rw [List.nil_append, Outcome.ok.inj hq] at hholds
      exact .inr ⟨chunks, p.1, by simpa using hquery, hasked, hholds, rfl⟩
    | err e =>
      refine .inl ⟨rfl, fun _ chunks hasked ↦ ?_⟩
      rw [hrun, hasked] at hqueue
      cases hqueue
    | panic =>
      refine .inl ⟨rfl, fun _ chunks hasked ↦ ?_⟩
      rw [hrun, hasked] at hqueue
      cases hqueue

end Syncer

end CooklangSync.Client
