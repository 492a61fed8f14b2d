import CooklangSync.Theory.Text

/-!
# Response — the `multipart/mixed` body of a batch download

`MultipartMixed::into_response` streams one section per requested chunk: a header block with the
chunk's id, then the bytes of its file.
-/

namespace CooklangSync.Server

open Theory

def sectionContentType : Text := "text/plain; charset=utf-8".toList

/-- A response with one section per requested chunk, given by its id and the path of its file. -/
structure MultipartMixed (FilePath : Type) where
  boundary : Text
  chunks : List (Text × FilePath)

def crlf : Text := "\r\n".toList

-- `"\r\n--{boundary}\r\nContent-Type: {..}\r\nX-Chunk-ID: {id}\r\n\r\n"`
def sectionHead (boundary id : Text) : Text :=
  crlf ++ "--".toList ++ boundary ++
    crlf ++ "Content-Type: ".toList ++ sectionContentType ++
    crlf ++ "X-Chunk-ID: ".toList ++ id ++ crlf ++ crlf

-- `"\r\n--{boundary}--\r\n"`
def closing (boundary : Text) : Text :=
  crlf ++ "--".toList ++ boundary ++ "--".toList ++ crlf

namespace MultipartMixed

variable {FilePath : Type}

def contentType (m : MultipartMixed FilePath) : Text :=
  "multipart/mixed; boundary=".toList ++ m.boundary

-- The ids with the contents of their files.  The stream panics at an absent file (`expect`).
def sections (m : MultipartMixed FilePath) (openFile : FilePath → Option Bytes) :
    Option (List (Text × Bytes)) :=
  m.chunks.mapM fun chunk ↦ (openFile chunk.2).map (chunk.1, ·)

def sectionBytes (boundary : Text) (item : Text × Bytes) : Bytes :=
  toUtf8 (sectionHead boundary item.1) ++ item.2

/-- The bytes of the whole body. -/
def intoResponse (m : MultipartMixed FilePath) (openFile : FilePath → Option Bytes) :
    Option Bytes :=
  (m.sections openFile).map fun items ↦
    items.flatMap (sectionBytes m.boundary) ++ toUtf8 (closing m.boundary)

end MultipartMixed

end CooklangSync.Server
