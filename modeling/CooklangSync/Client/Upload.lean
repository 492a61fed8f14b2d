import CooklangSync.Client.Syncer

/-!
# Upload — one upload pass

`check_upload_once` takes the rows without a jid, and for each of them hashes the file, commits it
and either sets the jid the server answers with, or queues the chunks the server asks for.  The
queued chunks are sent in batches at the end.
-/

namespace CooklangSync.Client

open Theory

/-- The server's answer to a commit. -/
inductive CommitResultStatus where
  | success (jid : Int)
  | needChunks (chunkIds : Text)
  deriving DecidableEq, Repr

/-! ## 1. Batches -/

/-- The batches of a pass: the full ones, the one that is being filled, and its size. -/
structure UploadQueue where
  full : List (List Chunk)
  last : List Chunk
  size : Nat
  deriving DecidableEq, Repr

namespace UploadQueue

def maxUploadSize : Nat := 3000000

def empty : UploadQueue := ⟨[], [], 0⟩

-- A batch is closed after the chunk that makes it too large.
def push (q : UploadQueue) (chunk : Chunk) : UploadQueue :=
  let size := q.size + chunk.2.length
  let last := q.last ++ [chunk]
  if maxUploadSize < size then ⟨q.full ++ [last], [], 0⟩ else ⟨q.full, last, size⟩

def batches (q : UploadQueue) : List (List Chunk) := (q.full ++ [q.last]).filter (!·.isEmpty)

end UploadQueue

namespace Syncer

def enqueueChunks (c : Chunker) : UploadQueue → List Text → Outcome SyncError UploadQueue
  | q, [] => pure q
  | q, chunkId :: rest => do
    let data ← c.readChunk chunkId
    enqueueChunks c (q.push (chunkId, data)) rest

/-! ## 2. One row -/

-- A deleted file has one chunk id, the empty one.
def hashFile (sha256 : Bytes → Text) (env : Chunker.ReadEnv) (s : ClientState) (f : FileRecord) :
    Chunker × Outcome SyncError Text :=
  if f.deleted then (s.chunker, .ok [])
  else
    match s.chunker.hashify sha256 s.disk env f.path with
    | (c, .ok ids) => (c, .ok (List.intercalate [','] ids))
    | (c, .err e) => (c, .err e)
    | (c, .panic) => (c, .panic)

/-- Acts on the answer to the commit of a row.  Returns the queue, and whether the row was
accepted. -/
def recordAnswer (registryFails : Bool) (s : ClientState) (f : FileRecord) (q : UploadQueue) :
    CommitResultStatus → ClientState × Outcome SyncError (UploadQueue × Bool)
  | .success jid =>
    if registryFails then (s, .err .dbQueryError)
    else ({ s with registry := s.registry.updateJid f jid }, .ok (q, true))
  | .needChunks chunks =>
    match enqueueChunks s.chunker q (chunks.splitOn ',') with
    | .ok q => (s, .ok (q, false))
    | .err e => (s, .err e)
    | .panic => (s, .panic)

/-! ## 3. The pass -/

/-- What a pass gets from its environment: the `i`-th row is read, committed and recorded under the
index `i`. -/
structure UploadEnv where
  queryFails : Bool
  reads : Nat → Chunker.ReadEnv
  commit : Nat → FileRecord → Text → Outcome SyncError CommitResultStatus
  registryFails : Nat → Bool
  uploadBatch : List Chunk → Outcome SyncError Unit

def uploadFile (sha256 : Bytes → Text) (env : UploadEnv) (i : Nat) (s : ClientState)
    (f : FileRecord) (q : UploadQueue) : ClientState × Outcome SyncError (UploadQueue × Bool) :=
  match hashFile sha256 (env.reads i) s f with
  | (c, .err e) => ({ s with chunker := c }, .err e)
  | (c, .panic) => ({ s with chunker := c }, .panic)
  | (c, .ok chunkIds) =>
    match env.commit i f chunkIds with
    | .err e => ({ s with chunker := c }, .err e)
    | .panic => ({ s with chunker := c }, .panic)
    | .ok answer => recordAnswer (env.registryFails i) { s with chunker := c } f q answer

def uploadFiles (sha256 : Bytes → Text) (env : UploadEnv) : Nat → ClientState → UploadQueue → Bool →
    List FileRecord → ClientState × Outcome SyncError (UploadQueue × Bool)
  | _, s, q, allCommitted, [] => (s, .ok (q, allCommitted))
  | i, s, q, allCommitted, f :: fs =>
    match uploadFile sha256 env i s f q with
    | (s, .ok (q, accepted)) => uploadFiles sha256 env (i + 1) s q (allCommitted && accepted) fs
    | failure => failure

def uploadBatches (env : UploadEnv) : List (List Chunk) → Outcome SyncError Unit
  | [] => pure ()
  | batch :: rest => do
    let _ ← env.uploadBatch batch
    uploadBatches env rest

/-- One upload pass.  Returns whether every row was accepted. -/
def checkUploadOnce (sha256 : Bytes → Text) (env : UploadEnv) (namespaceId : Int)
    (s : ClientState) : ClientState × Outcome SyncError Bool :=
  if env.queryFails then (s, .err .dbQueryError)
  else
    match uploadFiles sha256 env 0 s .empty true (s.registry.updatedLocally namespaceId) with
    | (s, .ok (q, allCommitted)) =>
      match uploadBatches env q.batches with
      | .ok () => (s, .ok allCommitted)
      | .err e => (s, .err e)
      | .panic => (s, .panic)
    | (s, .err e) => (s, .err e)
    | (s, .panic) => (s, .panic)

end Syncer

end CooklangSync.Client
