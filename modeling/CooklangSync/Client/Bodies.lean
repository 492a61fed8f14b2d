import CooklangSync.Client.Remote
import CooklangSync.Theory.FormData

/-!
# Bodies — the request bodies the client builds

A batch of chunks is a multipart body, every other body a form.
-/

namespace CooklangSync.Client

open Theory

/-! ## 1. Batches -/

/-- The text of a random UUID. -/
structure Uuid where
  text : Text
  length_text : (toUtf8 text).length = 36

def Uuid.boundary (uuid : Uuid) : Text := List.replicate 24 '-' ++ uuid.text

def partHeader (boundary chunkId : Text) : Text :=
  "--".toList ++ boundary ++ "\r\nContent-Disposition: form-data; name=\"".toList ++ chunkId ++
    "\"\r\nContent-Type: application/octet-stream\r\n\r\n".toList

def partBody (boundary : Text) (chunk : Chunk) : Bytes :=
  toUtf8 (partHeader boundary chunk.1) ++ chunk.2 ++ toUtf8 "\r\n".toList

/-- The body `upload_batch` sends. -/
def uploadBatchBody (boundary : Text) (chunks : List Chunk) : Bytes :=
  chunks.flatMap (partBody boundary) ++ toUtf8 ("--".toList ++ boundary ++ "--\r\n".toList)

/-- What a chunk takes in a batch. -/
def partSize (chunk : Chunk) : Nat := 149 + (toUtf8 chunk.1).length + chunk.2.length

theorem Uuid.length_boundary (uuid : Uuid) : (toUtf8 uuid.boundary).length = 60 := by
  rw [boundary, toUtf8_append, List.length_append, uuid.length_text]
  rfl

theorem length_partBody (uuid : Uuid) (chunk : Chunk) :
    (partBody uuid.boundary chunk).length = partSize chunk := by
  have hdashes : (toUtf8 "--".toList).length = 2 := by decide
  have hname : (toUtf8 "\r\nContent-Disposition: form-data; name=\"".toList).length = 40 := by
    decide +kernel
  have htype : (toUtf8 "\"\r\nContent-Type: application/octet-stream\r\n\r\n".toList).length = 45 := by
    decide +kernel
  have hend : (toUtf8 "\r\n".toList).length = 2 := by decide
  simp only [partBody, partHeader, toUtf8_append, List.length_append, hdashes, hname, htype, hend,
    Uuid.length_boundary, partSize]
  omega

theorem length_uploadBatchBody (uuid : Uuid) (chunks : List Chunk) :
    (uploadBatchBody uuid.boundary chunks).length = (chunks.map partSize).sum + 66 := by
  have hparts : chunks.map (fun chunk ↦ (partBody uuid.boundary chunk).length) =
      chunks.map partSize :=
    List.map_congr_left fun chunk _ ↦ length_partBody uuid chunk
  have hdashes : (toUtf8 "--".toList).length = 2 := by decide
  have hend : (toUtf8 "--\r\n".toList).length = 4 := by decide
  rw [uploadBatchBody, List.length_append, List.length_flatMap, hparts, toUtf8_append,
    toUtf8_append, List.length_append, List.length_append, Uuid.length_boundary, hdashes, hend]

/-! ## 2. Forms -/

/-- The body of a commit. -/
def commitBody (path : Text) (deleted : Bool) (chunkIds : Text) : Bytes :=
  urlencodePairs [("deleted".toList, if deleted then "true".toList else "false".toList),
    ("chunk_ids".toList, chunkIds), ("path".toList, path)]

/-- The body `download_batch` sends. -/
def downloadBatchBody (chunkIds : List Text) : Bytes :=
  urlencodePairs (chunkIds.map fun id ↦ ("chunk_ids[]".toList, id))

theorem length_commitBody (path chunkIds : Text) :
    (commitBody path false chunkIds).length =
      30 + urlencodedLength chunkIds + urlencodedLength path := by
  have hdeleted : urlencodedLength "deleted".toList = 7 := by decide
  have hfalse : urlencodedLength "false".toList = 5 := by decide
  have hids : urlencodedLength "chunk_ids".toList = 9 := by decide
  have hpath : urlencodedLength "path".toList = 4 := by decide
  simp only [commitBody, length_urlencodePairs, List.map_cons, List.map_nil, List.sum_cons,
    List.sum_nil, List.length_cons, List.length_nil, hdeleted, hfalse, hids, hpath,
    Bool.false_eq_true, if_false]
  omega

theorem length_downloadBatchBody (chunkIds : List Text) :
    (downloadBatchBody chunkIds).length =
      (chunkIds.map fun id ↦ 16 + urlencodedLength id).sum + (chunkIds.length - 1) := by
  have hname : urlencodedLength "chunk_ids[]".toList = 15 := by decide
  rw [downloadBatchBody, length_urlencodePairs, List.map_map, List.length_map]
  simp only [Function.comp_def, hname]

end CooklangSync.Client
