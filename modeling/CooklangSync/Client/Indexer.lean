import CooklangSync.Client.Chunker
import CooklangSync.Client.Registry
import CooklangSync.Theory.Keyed

/-!
# Indexer — one comparison of the storage directory with the registry

`check_index_once` walks the storage directory, makes a record of every eligible entry, and
appends rows to the registry where the two disagree.  Entries on which the walk reports an error
are left out of the scan.
-/

namespace CooklangSync.Client

open Theory

def truncateToSeconds (t : OffsetDateTime) : OffsetDateTime := { t with nanosecond := 0 }

/-! ## 1. The directory walk -/

/-- What the system reports during one scan: the entries on which the walk reports an error, the
entries whose metadata cannot be read, and the size and modification time of directories. -/
structure ScanEnv where
  unwalkable : Place Name → Bool
  metadataFails : Place Name → Bool
  dirMetadata : Place Name → Nat × OffsetDateTime

/-- The place the walk starts at; a link there is followed. -/
def walkRoot (disk : Disk) (basePath : Path Name) : Option (Place Name) :=
  match disk.resolve true basePath with
  | .found k => some k
  | _ => none

-- `to_str` gives nothing for a name that is not UTF-8.
def startsWithDot (n : Name) : Bool :=
  match fromUtf8 n with
  | some ('.' :: _) => true
  | _ => false

def isDotDir (disk : Disk) (n : Name) (k : Place Name) : Bool :=
  disk.isDirAt (n :: k) && startsWithDot n

/-- The walk gets to the entry with the relative name `rel`, innermost name first: what is above
it are directories that are read without error and not pruned. -/
def reached (disk : Disk) (env : ScanEnv) (root : Place Name) : List Name → Bool
  | [] => (disk.lookup root).isSome
  | n :: rel =>
    reached disk env root rel && disk.isDirAt (rel ++ root) && !env.unwalkable (rel ++ root) &&
      (disk.lookup (n :: (rel ++ root))).isSome && !isDotDir disk n (rel ++ root)

-- An error on a directory is one about its contents; the entry itself is walked.
def walked (disk : Disk) (env : ScanEnv) (root : Place Name) (rel : List Name) : Bool :=
  reached disk env root rel && (disk.isDirAt (rel ++ root) || !env.unwalkable (rel ++ root))

/-- The entries the walk yields, in the order the tree lists them. -/
def walkDir (disk : Disk) (env : ScanEnv) (root : Place Name) : List (List Name) :=
  ((disk.nodes.keys.filter (root.isSuffixOf ·)).map fun k ↦ k.take (k.length - root.length)).filter
    (walked disk env root)

def entryPath (basePath : Path Name) (rel : List Name) : Path Name :=
  if rel = [] then basePath
  else { basePath with comps := basePath.comps ++ rel.reverse.map .normal, trailing := false }

/-- `display` of a path written without empty and `.` components. -/
def displayPath (path : Path Name) : Text :=
  let names := path.comps.map fun comp ↦
    match comp with
    | .parent => "..".toList
    | .normal name => toStringLossy name
  (if path.absolute then ['/'] else []) ++ ['/'].intercalate names ++
    if path.trailing && names ≠ [] then ['/'] else []

def isSymlink (disk : Disk) (basePath : Path Name) (root : Place Name) (rel : List Name) : Bool :=
  match if rel = [] then disk.resolve basePath.trailing basePath else .found (rel ++ root) with
  | .found k =>
    match disk.lookup k with
    | some (.symlink _) => true
    | _ => false
  | _ => false

def filterEligible (disk : Disk) (basePath : Path Name) (root : Place Name) (rel : List Name) :
    Bool :=
  if isSymlink disk basePath root rel then false
  else isText (entryPath basePath rel) || isBinary (entryPath basePath rel)

/-- `strip_prefix` and `to_slash_lossy`.  A separator is a character of its own, so the names are
decoded one by one. -/
def relativePath : List Name → Text
  | [] => []
  | [n] => toStringLossy n
  | n :: rel => relativePath rel ++ '/' :: toStringLossy n

/-! ## 2. Records -/

def buildFileRecord (disk : Disk) (env : ScanEnv) (basePath : Path Name) (root : Place Name)
    (namespaceId : Int) (rel : List Name) : Outcome SyncError CreateForm :=
  let form (size : Nat) (time : OffsetDateTime) : CreateForm :=
    { jid := none, path := relativePath rel, deleted := false, size := size,
      modifiedAt := truncateToSeconds time, namespaceId := namespaceId }
  if env.metadataFails (rel ++ root) then .err (.ioError (displayPath (entryPath basePath rel)))
  else
    match disk.lookup (rel ++ root) with
    | some (.file data) => .ok (form data.content.length data.modified)
    | some .dir => .ok (form (env.dirMetadata (rel ++ root)).1 (env.dirMetadata (rel ++ root)).2)
    | _ => .err (.ioError (displayPath (entryPath basePath rel)))

def buildFileRecords (disk : Disk) (env : ScanEnv) (basePath : Path Name) (root : Place Name)
    (namespaceId : Int) : List (List Name) → Outcome SyncError (List CreateForm)
  | [] => pure []
  | rel :: rels => do
    let record ← buildFileRecord disk env basePath root namespaceId rel
    let rest ← buildFileRecords disk env basePath root namespaceId rels
    pure (record :: rest)

/-- The walk of a missing root yields one error, which is dropped like any other. -/
def eligibleEntries (disk : Disk) (env : ScanEnv) (basePath : Path Name) :
    List (List Name) :=
  match walkRoot disk basePath with
  | none => []
  | some root => (walkDir disk env root).filter (filterEligible disk basePath root)

def getFileRecordsFromDisk (disk : Disk) (env : ScanEnv) (basePath : Path Name)
    (namespaceId : Int) : Outcome SyncError (List CreateForm) := do
  let root := (walkRoot disk basePath).getD []
  let records ← buildFileRecords disk env basePath root namespaceId (eligibleEntries disk env basePath)
  pure (keepLast CreateForm.path records)

def getFileRecordsFromRegistry (registry : Registry) (namespaceId : Int) : List FileRecord :=
  keepLast FileRecord.path (registry.nonDeleted namespaceId)

def buildDeleteForm (record : FileRecord) (namespaceId : Int) : DeleteForm where
  path := record.path
  jid := none
  deleted := true
  size := record.size
  modifiedAt := record.modifiedAt
  namespaceId := namespaceId

/-! ## 3. The comparison -/

/-- Compares the two maps, each given in its order of iteration. -/
def compareRecords (fromDb : List FileRecord) (fromFs : List CreateForm) (namespaceId : Int) :
    List DeleteForm × List CreateForm :=
  let toRemove := fromDb.filterMap fun dbFile ↦
    match getKey CreateForm.path fromFs dbFile.path with
    | some _ => none
    | none => some (buildDeleteForm dbFile namespaceId)
  let changed := fromDb.filterMap fun dbFile ↦
    match getKey CreateForm.path fromFs dbFile.path with
    | some diskFile => if dbFile.sameAs diskFile then none else some diskFile
    | none => none
  let new := fromFs.filter fun diskFile ↦ (getKey FileRecord.path fromDb diskFile.path).isNone
  (toRemove, changed ++ new)

/-- The orders in which the two maps are iterated. -/
structure IterationOrder where
  db : Arrangement FileRecord
  fs : Arrangement CreateForm

/-- The database calls of one pass that fail. -/
structure IndexFaults where
  nonDeleted : Bool
  delete : Bool
  create : Bool
  deriving DecidableEq, Repr

/-- One index pass.  Returns the registry it leaves, and whether it has appended rows. -/
def checkIndexOnce (registry : Registry) (disk : Disk) (env : ScanEnv) (order : IterationOrder)
    (faults : IndexFaults) (basePath : Path Name) (namespaceId : Int) :
    Registry × Outcome SyncError Bool :=
  if faults.nonDeleted then (registry, .err .dbQueryError)
  else
    match getFileRecordsFromDisk disk env basePath namespaceId with
    | .panic => (registry, .panic)
    | .err e => (registry, .err e)
    | .ok fromFs =>
      let fromDb := getFileRecordsFromRegistry registry namespaceId
      let (toRemove, toAdd) :=
        compareRecords (order.db.arrange fromDb) (order.fs.arrange fromFs) namespaceId
      if toRemove = [] ∧ toAdd = [] then (registry, .ok false)
      else if toRemove ≠ [] ∧ faults.delete = true then (registry, .err .dbQueryError)
      else
        let removed := registry.delete toRemove
        if toAdd ≠ [] ∧ faults.create = true then (removed, .err .dbQueryError)
        else (removed.create toAdd, .ok true)

end CooklangSync.Client
