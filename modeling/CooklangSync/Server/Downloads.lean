import CooklangSync.Server.Chunks
import CooklangSync.Server.Containment
import CooklangSync.Server.Response

/-!
# Downloads — the handlers that read chunks

`download_chunks` takes every value of its form for a chunk id, whatever the key, and streams the
files one after the other.  `retrieve` sends one file, and admits ids of letters and digits only.
-/

namespace CooklangSync.Server

open Theory

def urlencodedForm : Text := "application/x-www-form-urlencoded".toList

/-! ## 1. The handlers -/

section Handlers

variable (root : Path Name) (fromStr : Text → Option (List (Text × Text)))

/-- The boundary is the random one of `new_random`. -/
def downloadChunks (boundary contentType body : Text) :
    Outcome ChunkError (MultipartMixed (Path Name)) :=
  if urlencodedForm.isPrefixOf contentType then do
    let chunks ← requestedChunks fromStr root body
    pure ⟨boundary, chunks⟩
  else .err .unmatchedFormat

/-- The status, and what is sent. -/
def retrieve (openFile : Path Name → Option Bytes) (param : Text) :
    Outcome ChunkError (Nat × Bytes) :=
  match ChunkId.fromParam param with
  | .error _ => .ok (422, [])
  | .ok id =>
    if id = [] then .ok (404, [])
    else do
      let path ← ChunkId.filePath root id
      match openFile path with
      | some content => pure (200, content)
      | none => pure (404, [])

end Handlers

/-! ## 2. The stream -/

namespace MultipartMixed

variable {FilePath : Type}

def streamFrom (boundary : Text) (openFile : FilePath → Option Bytes) :
    List (Text × FilePath) → Bytes × Bool
  | [] => (toUtf8 (closing boundary), true)
  | (id, path) :: rest =>
    match openFile path with
    | none => ([], false)
    | some content =>
      let r := streamFrom boundary openFile rest
      (sectionBytes boundary (id, content) ++ r.1, r.2)

/-- What is streamed, and whether it comes to its end: at an absent file the stream panics, which
no layer catches any more. -/
def stream (m : MultipartMixed FilePath) (openFile : FilePath → Option Bytes) : Bytes × Bool :=
  streamFrom m.boundary openFile m.chunks

/-- The chunks before the first one whose file is absent. -/
def present (openFile : FilePath → Option Bytes) : List (Text × FilePath) → List (Text × Bytes)
  | [] => []
  | (id, path) :: rest =>
    match openFile path with
    | none => []
    | some content => (id, content) :: present openFile rest

theorem streamFrom_eq (boundary : Text) (openFile : FilePath → Option Bytes)
    (chunks : List (Text × FilePath)) :
    streamFrom boundary openFile chunks =
      ((present openFile chunks).flatMap (sectionBytes boundary) ++
          if chunks.all (fun chunk ↦ (openFile chunk.2).isSome) then toUtf8 (closing boundary) else [],
        chunks.all fun chunk ↦ (openFile chunk.2).isSome) := by
  induction chunks with
  | nil => rfl
  | cons chunk rest ih =>
    rw [streamFrom, present, List.all_cons]
    cases hopen : openFile chunk.2 with
    | none => rfl
    | some content =>
      simp only [ih, List.flatMap_cons, List.append_assoc, Option.isSome_some, Bool.true_and]

theorem sections_eq (m : MultipartMixed FilePath) (openFile : FilePath → Option Bytes) :
    m.sections openFile =
      if m.chunks.all (fun chunk ↦ (openFile chunk.2).isSome) then some (present openFile m.chunks)
      else none := by
  rw [sections]
  induction m.chunks with
  | nil => rfl
  | cons chunk rest ih =>
    rw [List.mapM_cons, present, List.all_cons, ih]
    cases openFile chunk.2 with
    | none => rfl
    | some content =>
      rw [Option.isSome_some, Bool.true_and]
      split
      · rfl
      · rfl

/-- The stream comes to its end exactly when it is the body of the response. -/
theorem stream_eq_iff (m : MultipartMixed FilePath) (openFile : FilePath → Option Bytes)
    (body : Bytes) : m.stream openFile = (body, true) ↔ m.intoResponse openFile = some body := by
  rw [stream, streamFrom_eq, intoResponse, sections_eq]
  by_cases hall : m.chunks.all (fun chunk ↦ (openFile chunk.2).isSome) = true
  · rw [if_pos hall, if_pos hall, hall]
    simp
  · rw [if_neg hall, if_neg hall, Bool.eq_false_iff.mpr hall]
    simp

end MultipartMixed

end CooklangSync.Server
