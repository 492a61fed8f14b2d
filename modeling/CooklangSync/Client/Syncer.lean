import CooklangSync.Client.Indexer
import CooklangSync.Client.Remote

/-!
# Syncer — one download pass and the steps of an upload pass

`check_download_once` lists the records past the registry's cursor, fetches the chunks it lacks and
then carries the records out one by one.  A record is two effects, on the disk and in the registry,
and any operation may fail between them.
-/

namespace CooklangSync.Client

open Theory

/-- A record of the server's list response. -/
structure ResponseFileRecord where
  id : Int
  path : Text
  deleted : Bool
  chunkIds : Text
  deriving DecidableEq, Repr

structure ClientState where
  registry : Registry
  chunker : Chunker
  disk : Disk

namespace Syncer

/-! ## 1. Forms -/

def buildFileRecord (disk : Disk) (dirMetadata : Place Name → Nat × OffsetDateTime)
    (path : Text) (fullPath : Path Name) (jid namespaceId : Int) : Outcome SyncError CreateForm :=
  let form (size : Nat) (time : OffsetDateTime) : CreateForm :=
    { jid := some jid, path := path, deleted := false, size := size,
      modifiedAt := truncateToSeconds time, namespaceId := namespaceId }
  match disk.stat fullPath with
  | some (_, .file data) => .ok (form data.content.length data.modified)
  | some (k, .dir) => .ok (form (dirMetadata k).1 (dirMetadata k).2)
  | _ => .err (.ioError path)

def buildDeleteForm (path : Text) (now : OffsetDateTime) (jid namespaceId : Int) : DeleteForm where
  path := path
  jid := some jid
  deleted := true
  size := 0
  modifiedAt := truncateToSeconds now
  namespaceId := namespaceId

/-! ## 2. Carrying records out -/

/-- The environment of one record: what its operations meet, and which of them fail. -/
structure RecordEnv where
  save : Chunker.SaveEnv
  delete : Chunker.DeleteEnv
  metadataFails : Bool
  dirMetadata : Place Name → Nat × OffsetDateTime
  registryFails : Bool
  now : OffsetDateTime

def chunksOf (d : ResponseFileRecord) : List Text := d.chunkIds.splitOn ','

-- The row of a deleted record is written before the file is removed, the row of a live one after
-- the file is written.
def applyRecord (env : RecordEnv) (namespaceId : Int) (s : ClientState) (d : ResponseFileRecord) :
    ClientState × Outcome SyncError Unit :=
  if d.deleted then
    if env.registryFails then (s, .err .dbQueryError)
    else
      let form := buildDeleteForm d.path env.now d.id namespaceId
      let s := { s with registry := s.registry.delete [form] }
      if s.chunker.exists s.disk d.path then
        let r := s.chunker.delete s.disk env.delete d.path
        ({ s with disk := r.2 }, r.1)
      else (s, .ok ())
  else
    match s.chunker.save s.disk env.save d.path (chunksOf d) with
    | (.ok (), disk) =>
      let s := { s with disk := disk }
      match if env.metadataFails then .err (.ioError d.path)
        else buildFileRecord s.disk env.dirMetadata d.path (s.chunker.fullPath d.path) d.id
          namespaceId with
      | .ok form =>
        if env.registryFails then (s, .err .dbQueryError)
        else ({ s with registry := s.registry.create [form] }, .ok ())
      | .err e => (s, .err e)
      | .panic => (s, .panic)
    | (failure, disk) => ({ s with disk := disk }, failure)

/-- The loop over the response, the record with index `i` first. -/
def applyRecords (env : Nat → RecordEnv) (namespaceId : Int) :
    Nat → ClientState → List ResponseFileRecord → ClientState × Outcome SyncError Unit
  | _, s, [] => (s, .ok ())
  | i, s, d :: ds =>
    match applyRecord (env i) namespaceId s d with
    | (s, .ok ()) => applyRecords env namespaceId (i + 1) s ds
    | (s, failure) => (s, failure)

/-! ## 3. The download pass -/

section Download

variable (sha256 : Bytes → Text)

/-- Puts the chunks of the present files into the cache, and queues the ids that are still not in
it. -/
def collectChunks (env : Nat → Chunker.ReadEnv) (disk : Disk) :
    Nat → Chunker → List ResponseFileRecord → Chunker × Outcome SyncError (List Text)
  | _, c, [] => (c, .ok [])
  | i, c, d :: ds =>
    if d.deleted then collectChunks env disk (i + 1) c ds
    else
      let hashed := if c.exists disk d.path then c.hashify sha256 disk (env i) d.path else (c, .ok [])
      match hashed with
      | (c, .ok _) =>
        let missing := (chunksOf d).filter (!c.checkChunk ·)
        match collectChunks env disk (i + 1) c ds with
        | (c, .ok queue) => (c, .ok (missing ++ queue))
        | failure => failure
      | (c, .err e) => (c, .err e)
      | (c, .panic) => (c, .panic)

def saveDownloaded (c : Chunker) : List Chunk → Chunker
  | [] => c
  | (chunkId, data) :: rest => saveDownloaded (c.saveChunk chunkId data) rest

/-- What a pass gets from its environment. -/
structure DownloadEnv where
  latestJidFails : Bool
  reads : Nat → Chunker.ReadEnv
  batch : List Text → BatchResponse
  records : Nat → RecordEnv

/-- The chunker once the needed chunks are collected, and whether collecting succeeded. -/
def fetchChunks (env : DownloadEnv) (c : Chunker) (disk : Disk)
    (toDownload : List ResponseFileRecord) : Chunker × Outcome SyncError Unit :=
  match collectChunks sha256 env.reads disk 0 c toDownload with
  | (c, .ok []) => (c, .ok ())
  | (c, .ok queue) =>
    let r := downloadBatch (env.batch queue)
    (saveDownloaded c r.1, r.2)
  | (c, .err e) => (c, .err e)
  | (c, .panic) => (c, .panic)

/-- The jid a pass asks for; without one, or when the query fails, it asks for everything. -/
def latestLocal (env : DownloadEnv) (s : ClientState) (namespaceId : Int) : Int :=
  if env.latestJidFails then 0 else (s.registry.latestJid namespaceId).getD 0

/-- One download pass; `list` is the server's answer to the request for the records past a jid. -/
def checkDownloadOnce (env : DownloadEnv) (list : Int → Outcome SyncError (List ResponseFileRecord))
    (namespaceId : Int) (s : ClientState) : ClientState × Outcome SyncError Bool :=
  match list (latestLocal env s namespaceId) with
  | .err e => (s, .err e)
  | .panic => (s, .panic)
  | .ok toDownload =>
    match fetchChunks sha256 env s.chunker s.disk toDownload with
    | (chunker, .ok ()) =>
      match applyRecords env.records namespaceId 0 { s with chunker := chunker } toDownload with
      | (s, .ok ()) => (s, .ok (!toDownload.isEmpty))
      | (s, .err e) => (s, .err e)
      | (s, .panic) => (s, .panic)
    | (chunker, .err e) => ({ s with chunker := chunker }, .err e)
    | (chunker, .panic) => ({ s with chunker := chunker }, .panic)

end Download

end Syncer

end CooklangSync.Client
