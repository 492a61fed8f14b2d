import CooklangSync.Client.Indexer
import CooklangSync.Client.Upload

/-!
# Once — a download or an upload that is run by itself

`run_download_once` and `run_upload_once` open the registry anew, with a chunker that has nothing in
its cache, and make their passes.
-/

namespace CooklangSync.Client

open Theory

def Chunker.new (basePath : Path Name) (evicts : Nat → Text → Bool) : Chunker where
  cache := ⟨fun _ ↦ none, 0, evicts⟩
  basePath := basePath

/-- The client when it has just been started: the registry and the disk are what is left. -/
def ClientState.started (s : ClientState) (evicts : Nat → Text → Bool) : ClientState :=
  { s with chunker := .new s.chunker.basePath evicts }

/-- What a start meets: whether the registry can be opened, and what the new cache will evict. -/
structure StartEnv where
  connectionFails : Bool
  evicts : Nat → Text → Bool

/-- What an index pass meets. -/
structure IndexEnv where
  scan : ScanEnv
  order : IterationOrder
  faults : IndexFaults

section Once

variable (sha256 : Bytes → Text) (start : StartEnv) (namespaceId : Int) (s : ClientState)

def runDownloadOnce (env : Syncer.DownloadEnv)
    (list : Int → Outcome SyncError (List ResponseFileRecord)) :
    ClientState × Outcome SyncError Unit :=
  let s := s.started start.evicts
  if start.connectionFails then (s, .err .connectionInitError)
  else
    let r := Syncer.checkDownloadOnce sha256 env list namespaceId s
    (r.1, do
      let _ ← r.2
      pure ())

def indexOnce (env : IndexEnv) : ClientState × Outcome SyncError Bool :=
  let r := checkIndexOnce s.registry s.disk env.scan env.order env.faults s.chunker.basePath
    namespaceId
  ({ s with registry := r.1 }, r.2)

-- The second pass commits the rows whose chunks the first one has sent; what it returns is ignored.
def runUploadOnce (index : IndexEnv) (first second : Syncer.UploadEnv) :
    ClientState × Outcome SyncError Unit :=
  let s := s.started start.evicts
  if start.connectionFails then (s, .err .connectionInitError)
  else
    match indexOnce namespaceId s index with
    | (s, .ok _) =>
      match Syncer.checkUploadOnce sha256 first namespaceId s with
      | (s, .ok true) => (s, .ok ())
      | (s, .ok false) =>
        let r := Syncer.checkUploadOnce sha256 second namespaceId s
        (r.1, do
          let _ ← r.2
          pure ())
      | (s, .err e) => (s, .err e)
      | (s, .panic) => (s, .panic)
    | (s, .err e) => (s, .err e)
    | (s, .panic) => (s, .panic)

end Once

end CooklangSync.Client
