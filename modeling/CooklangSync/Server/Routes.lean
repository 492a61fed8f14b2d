import CooklangSync.Server.Downloads
import CooklangSync.Server.Metadata

/-!
# Routes — forms, limits and statuses

A request reaches its handler when its body is not too long and can be read.  A handler that panics
is answered for with 500.
-/

namespace CooklangSync.Server

open Theory

/-! ## 1. Statuses -/

def ChunkError.status : ChunkError → Nat
  | .unmatchedFormat => 404
  | .io => 500

-- `CatchPanicLayer` answers for a handler that panics.
def statusOf {α : Type} : Outcome ChunkError α → Nat
  | .ok _ => 200
  | .err e => e.status
  | .panic => 500

/-! ## 2. Forms -/

section Forms

variable (fromBytes : Bytes → Option (List (Text × Text)))

-- A field that is absent or given twice is an error, and any other is ignored.
def formValue (pairs : List (Text × Text)) (name : Text) : Option Text :=
  match pairs.filter (·.1 = name) with
  | [(_, value)] => some value
  | _ => none

def parseBool (value : Text) : Option Bool :=
  if value = "true".toList then some true
  else if value = "false".toList then some false
  else none

def CommitPayload.deserialize (pairs : List (Text × Text)) : Option CommitPayload := do
  let path ← formValue pairs "path".toList
  let deleted ← (formValue pairs "deleted".toList).bind parseBool
  let chunkIds ← formValue pairs "chunk_ids".toList
  pure ⟨path, deleted, chunkIds⟩

/-- The journal after a commit, and its answer or status. -/
def routeCommit (isPresent : Text → Outcome ChunkError Bool) (journal : Journal) (userId : Int)
    (body : Bytes) : Journal × Except Nat CommitResultStatus :=
  if Metadata.formLimit < body.length then (journal, .error 413)
  else
    match (fromBytes body).bind CommitPayload.deserialize with
    | none => (journal, .error 422)
    | some payload =>
      match commit isPresent journal userId payload with
      | .ok (status, journal) => (journal, .ok status)
      | failure => (journal, .error (statusOf failure))

variable (root : Path Name)

/-- The body has to be text. -/
def routeDownload (boundary contentType : Text) (body : Bytes) :
    Except Nat (MultipartMixed (Path Name)) :=
  if Chunks.formLimit < body.length then .error 413
  else
    match fromUtf8 body with
    | none => .error 400
    | some text =>
      match downloadChunks root (fun text ↦ fromBytes (toUtf8 text)) boundary contentType text with
      | .ok m => .ok m
      | failure => .error (statusOf failure)

theorem deserialize_commitPairs (path chunkIds : Text) (deleted : Bool) :
    CommitPayload.deserialize
        [("deleted".toList, if deleted then "true".toList else "false".toList),
          ("chunk_ids".toList, chunkIds), ("path".toList, path)] = some ⟨path, deleted, chunkIds⟩ := by
  cases deleted with
  | false => rfl
  | true => rfl

end Forms

end CooklangSync.Server
