import CooklangSync.Client.Errors
import CooklangSync.Client.Models
import CooklangSync.Theory.FileSystem
import CooklangSync.Theory.Outcome
import CooklangSync.Theory.PathText

/-!
# Chunker — files as lists of chunks, and the files of the storage directory

`Chunker` splits files into chunks and hashes them, caches chunks by their ids, and writes and
removes files below its base path.  Everything the operating system decides is a parameter: which
operation of a call fails, and what has reached the disk by then.
-/

namespace CooklangSync.Client

open Theory

/-! ## 1. Paths and the disk -/

structure FileData where
  content : Bytes
  modified : OffsetDateTime
  deriving DecidableEq, Repr

abbrev Disk := FileTree Name FileData

/-- The path is a relative one of normal components. -/
def PlainPath (path : Text) (names : List Name) : Prop :=
  parsePath path = { absolute := false, comps := names.map .normal, trailing := false }

/-- The normal components of a path, in order. -/
def namesOf (path : Text) : List Name :=
  (parsePath path).comps.filterMap fun
    | .normal n => some n
    | .parent => none

-- What follows the last dot of a file name, unless the dot comes first.
def extension (name : Name) : Option Name :=
  match name.reverse.dropWhile (· ≠ 46) with
  | [] => none
  | _ :: stem => if stem = [] then none else some (name.reverse.takeWhile (· ≠ 46)).reverse

def toAsciiLowercase (name : Name) : Name :=
  name.map fun b ↦ if 65 ≤ b.toNat ∧ b.toNat ≤ 90 then b + 32 else b

def hasExtension (p : Path Name) (extensions : List Text) : Bool :=
  match p.fileName.bind extension with
  | some ext => (extensions.map toUtf8).contains (toAsciiLowercase ext)
  | none => false

def isBinary (p : Path Name) : Bool :=
  hasExtension p ["jpg".toList, "jpeg".toList, "png".toList]

def isText (p : Path Name) : Bool :=
  (match p.fileName with
    | some name =>
      [".shopping-list".toList, ".shopping-checked".toList, ".bookmarks".toList].contains
        (toStringLossy name)
    | none => false) ||
  hasExtension p ["cook".toList, "conf".toList, "yaml".toList, "yml".toList, "md".toList,
    "menu".toList, "jinja".toList, "j2".toList]

/-! ## 2. The chunk cache -/

/-- The cache may drop entries at every insertion, the inserted one included; `evicts i` are the
ids it drops at the `i`-th. -/
structure InMemoryCache where
  entries : Text → Option Bytes
  inserted : Nat
  evicts : Nat → Text → Bool

namespace InMemoryCache

def get (cache : InMemoryCache) (chunkHash : Text) : Outcome SyncError Bytes :=
  if chunkHash = [] then .ok [] else .okOr .getFromCacheError (cache.entries chunkHash)

def set (cache : InMemoryCache) (chunkHash : Text) (content : Bytes) : InMemoryCache where
  entries c :=
    if cache.evicts cache.inserted c then none
    else if c = chunkHash then some content else cache.entries c
  inserted := cache.inserted + 1
  evicts := cache.evicts

def contains (cache : InMemoryCache) (chunkHash : Text) : Bool :=
  (cache.entries chunkHash).isSome

end InMemoryCache

structure Chunker where
  cache : InMemoryCache
  basePath : Path Name

namespace Chunker

def fullPath (c : Chunker) (path : Text) : Path Name := c.basePath.push (parsePath path)

def «exists» (c : Chunker) (disk : Disk) (path : Text) : Bool := disk.pathExists (c.fullPath path)

def readChunk (c : Chunker) (chunkHash : Text) : Outcome SyncError Bytes := c.cache.get chunkHash

def saveChunk (c : Chunker) (chunkHash : Text) (content : Bytes) : Chunker :=
  { c with cache := c.cache.set chunkHash content }

def checkChunk (c : Chunker) (chunkHash : Text) : Bool :=
  if chunkHash = [] then true else c.cache.contains chunkHash

/-! ## 3. Hashing -/

def binaryChunkSize : Nat := 1024 * 1024
def binaryHashSize : Nat := 32
def textHashSize : Nat := 10

/-- The lines of a file, each with its newline. -/
def readLines : Bytes → List Bytes
  | [] => []
  | b :: bs =>
    if b = 10 then [b] :: readLines bs
    else
      match readLines bs with
      | [] => [[b]]
      | line :: rest => (b :: line) :: rest

/-- The successive reads of a file into a buffer: between one byte and a full buffer each. -/
def readBlocks (readSize : Nat → Nat) : Nat → Nat → Bytes → List Bytes
  | 0, _, _ => []
  | _, _, [] => []
  | fuel + 1, i, bs =>
    let n := max 1 (min (readSize i) binaryChunkSize)
    bs.take n :: readBlocks readSize fuel (i + 1) (bs.drop n)

/-- What happens while a file is read: how much each read delivers, and after how many chunks one
fails. -/
structure ReadEnv where
  readSize : Nat → Nat
  failsAfter : Option Nat

section Hashify

-- The digest in hexadecimal.
variable (sha256 : Bytes → Text)

def hash (data : Bytes) (size : Nat) : Text := (sha256 data).take size

def saveChunks (c : Chunker) (size : Nat) : List Bytes → Chunker
  | [] => c
  | data :: rest => (c.saveChunk (hash sha256 data size) data).saveChunks size rest

def hashifyChunks (c : Chunker) (env : ReadEnv) (path : Text) (size : Nat) (chunks : List Bytes) :
    Chunker × Outcome SyncError (List Text) :=
  match env.failsAfter with
  | some n => (c.saveChunks sha256 size (chunks.take n), .err (.ioError path))
  | none => (c.saveChunks sha256 size chunks, .ok (chunks.map (hash sha256 · size)))

def hashifyText (c : Chunker) (disk : Disk) (env : ReadEnv) (path : Text) :
    Chunker × Outcome SyncError (List Text) :=
  match disk.readFile (c.fullPath path) with
  | none => (c, .err (.ioError path))
  | some file => c.hashifyChunks sha256 env path textHashSize (readLines file.content)

def hashifyBinary (c : Chunker) (disk : Disk) (env : ReadEnv) (path : Text) :
    Chunker × Outcome SyncError (List Text) :=
  match disk.readFile (c.fullPath path) with
  | none => (c, .err (.ioError path))
  | some file => c.hashifyChunks sha256 env path binaryHashSize
      (readBlocks env.readSize file.content.length 0 file.content)

/-- The chunk ids of a file.  Puts the chunks into the cache. -/
def hashify (c : Chunker) (disk : Disk) (env : ReadEnv) (path : Text) :
    Chunker × Outcome SyncError (List Text) :=
  let p := parsePath path
  if isText p then c.hashifyText sha256 disk env path
  else if isBinary p then c.hashifyBinary sha256 disk env path
  else (c, .err (.unlistedFileFormat path))

end Hashify

/-! ## 4. Saving -/

inductive SaveFault where
  | createDirAll (made : Nat)
  | create
  | write (index : Nat)
  | flush
  deriving DecidableEq, Repr

/-- The environment of one `save`: the operation that fails, the number of bytes handed to the
writer that have reached the disk when it ends in an error, and the time. -/
structure SaveEnv where
  fault : Option SaveFault
  landed : Nat
  now : OffsetDateTime
  deriving Repr

/-- The disk with the parent directories of the path, and whether all of them are there. -/
def createParents (c : Chunker) (disk : Disk) (env : SaveEnv) (path : Text) : Disk × Bool :=
  match (c.fullPath path).parent with
  | none => (disk, true)
  | some parent =>
    match env.fault with
    | some (.createDirAll n) =>
      ((disk.createDirAll { parent with comps := parent.comps.take n }).1, false)
    | _ => disk.createDirAll parent

/-- The disk with the parent directories of the path, and the place `File::create` opened. -/
def openForSave (c : Chunker) (disk : Disk) (env : SaveEnv) (path : Text) :
    Disk × Option (Name × Place Name) :=
  let made := c.createParents disk env path
  (made.1, if made.2 = true ∧ env.fault ≠ some .create then made.1.creatable (c.fullPath path)
    else none)

/-- Looks the chunks up one by one and hands them to the writer. -/
def writeChunks (c : Chunker) (env : SaveEnv) (path : Text) :
    Nat → List Text → Bytes × Outcome SyncError Unit
  | _, [] => ([], if env.fault = some .flush then .err (.ioError path) else .ok ())
  | i, hash :: hashes =>
    match c.cache.get hash with
    | .err e => ([], .err e)
    | .panic => ([], .panic)
    | .ok chunk =>
      if env.fault = some (.write i) then (chunk, .err (.ioError path))
      else
        let rest := c.writeChunks env path (i + 1) hashes
        (chunk ++ rest.1, rest.2)

def save (c : Chunker) (disk : Disk) (env : SaveEnv) (path : Text) (hashes : List Text) :
    Outcome SyncError Unit × Disk :=
  match c.openForSave disk env path with
  | (disk, none) => (.err (.ioError path), disk)
  | (disk, some (n, k)) =>
    match c.writeChunks env path 0 hashes with
    | (content, .ok ()) => (.ok (), disk.put n k (.file ⟨content, env.now⟩))
    -- a writer that is dropped or fails has passed on only some of its bytes
    | (content, failure) => (failure, disk.put n k (.file ⟨content.take env.landed, env.now⟩))

/-! ## 5. Deleting -/

structure DeleteEnv where
  removeFileFails : Bool
  removeDirFails : Nat → Bool

/-- Removes the directory with the given components, innermost first, and goes on with its parent;
stops at the base path and at the first directory that cannot be removed. -/
def removeEmptyDirs (c : Chunker) (env : DeleteEnv) (absolute : Bool) :
    Nat → Disk → List (Comp Name) → Disk
  | _, disk, [] => disk
  | i, disk, comp :: comps =>
    let dir : Path Name :=
      { absolute := absolute, comps := (comp :: comps).reverse, trailing := false }
    if dir.sameComponents c.basePath then disk
    else if env.removeDirFails i then disk
    else
      match disk.removeDir dir with
      | none => disk
      | some disk => c.removeEmptyDirs env absolute (i + 1) disk comps

def delete (c : Chunker) (disk : Disk) (env : DeleteEnv) (path : Text) :
    Outcome SyncError Unit × Disk :=
  let fullPath := c.fullPath path
  match if env.removeFileFails then none else disk.removeFile fullPath with
  | none => (.err (.ioError path), disk)
  | some disk =>
    (.ok (), c.removeEmptyDirs env fullPath.absolute 0 disk fullPath.comps.reverse.tail)

end Chunker

end CooklangSync.Client
