import CooklangSync.Client.Bodies
import CooklangSync.System.DownloadWire
import CooklangSync.Theory.Multipart

/-!
# Upload wire — a batch is a form

The body of a batch is form data: one field for every chunk, with the chunk's id for its name.
-/

namespace CooklangSync.System

open Theory Client

/-! ## 1. Forms with one file to a field -/

def dispositionHead : Text := "Content-Disposition: form-data; name=\"".toList

def octetStreamHead : Text := "\"\r\nContent-Type: application/octet-stream".toList

def fileHead (name : Text) : Text := dispositionHead ++ (name ++ octetStreamHead)

/-- A field with a name of letters and digits, and bytes for its value. -/
def fileField (s : Multipart.Section) : Option (Text × Bytes) :=
  match fromUtf8 s.head with
  | none => none
  | some head =>
    let name := (head.drop dispositionHead.length).takeWhile Char.isAlphanum
    if fileHead name = head ∧ name ≠ [] then some (name, s.content) else none

/-- The fields of a form, if it has only such fields. -/
def formFields (boundary : Text) (body : Bytes) : Option (List (Text × Bytes)) :=
  (Multipart.decode (boundaryBytes boundary) (boundaryBytes_ne_nil boundary) body).bind
    (·.mapM fileField)

/-- Letters, digits and dashes. -/
def IsBoundary (boundary : Text) : Prop := boundary ≠ [] ∧ ∀ c ∈ boundary, c.isAlphanum ∨ c = '-'

instance (boundary : Text) : Decidable (IsBoundary boundary) :=
  decidable_of_iff (boundary ≠ [] ∧ boundary.all fun c ↦ c.isAlphanum || c == '-')
    (by simp [IsBoundary])

/-- The chunk can be a field of a form with this boundary. -/
structure IsSendable (boundary : Text) (chunk : Chunk) : Prop where
  alphanumeric : Alphanumeric chunk.1
  ne_nil : chunk.1 ≠ []
  content : ¬ boundaryBytes boundary <:+: chunk.2

/-! ## 2. The body of a batch -/

def sectionOf (chunk : Chunk) : Multipart.Section := ⟨toUtf8 (fileHead chunk.1), chunk.2⟩

theorem partBody_eq (boundary : Text) (chunk : Chunk) :
    partBody boundary chunk = boundaryBytes boundary ++ (sectionOf chunk).bytes := by
  have hstart : toUtf8 "\r\nContent-Disposition: form-data; name=\"".toList =
      Multipart.newline ++ toUtf8 dispositionHead := by decide +kernel
  have hend : toUtf8 "\"\r\nContent-Type: application/octet-stream\r\n\r\n".toList =
      toUtf8 octetStreamHead ++ Multipart.blankLine := by decide +kernel
  have hnewline : toUtf8 "\r\n".toList = Multipart.newline := by decide
  simp only [partBody, partHeader, boundaryBytes, sectionOf, Multipart.Section.bytes, fileHead,
    toUtf8_append, hstart, hend, hnewline, List.append_assoc]

theorem uploadBatchBody_eq (boundary : Text) (chunks : List Chunk) :
    uploadBatchBody boundary chunks =
      Multipart.encode (boundaryBytes boundary) (chunks.map sectionOf) := by
  have hclosing : toUtf8 "--\r\n".toList = Multipart.closing := by decide
  induction chunks with
  | nil =>
    rw [uploadBatchBody, List.flatMap_nil, List.nil_append, toUtf8_append, toUtf8_append, hclosing,
      ← toUtf8_append]
    rfl
  | cons chunk rest ih =>
    rw [uploadBatchBody] at ih
    rw [uploadBatchBody, List.flatMap_cons, List.append_assoc, ih, partBody_eq, List.append_assoc]
    rfl

theorem isMarker_boundaryBytes {boundary : Text} (h : IsBoundary boundary) :
    Multipart.IsMarker (boundaryBytes boundary) := by
  have hbyte : ∀ b ∈ boundaryBytes boundary, 45 ≤ b.toNat := by
    intro b hb
    rw [boundaryBytes, toUtf8_append, toUtf8_dashes, List.mem_append] at hb
    rcases hb with hb | hb
    · simp only [List.mem_cons, List.not_mem_nil, or_false, or_self] at hb
      rw [hb]
      decide
    · obtain ⟨c, hc, hb⟩ := List.mem_flatMap.mp hb
      rcases h.2 c hc with hc | rfl
      · rw [utf8EncodeChar_of_isAlphanum hc, List.mem_singleton] at hb
        have hrange := isAlphanum_range hc
        rw [hb, UInt8.toNat_ofNat_of_lt' (by change c.toNat < 256; omega)]
        omega
      · rw [List.mem_singleton.mp (show b ∈ [45] from hb)]
        decide
  refine ⟨?_, fun hmem ↦ absurd (hbyte _ hmem) (by decide),
    fun hmem ↦ absurd (hbyte _ hmem) (by decide)⟩
  obtain ⟨c, rest, rfl⟩ := List.exists_cons_of_ne_nil h.1
  have hpos := length_toUtf8_singleton_pos c
  have hcons : toUtf8 (c :: rest) = toUtf8 [c] ++ toUtf8 rest := toUtf8_append [c] rest
  rw [boundaryBytes, toUtf8_append, toUtf8_dashes, hcons]
  simp only [List.length_append, List.length_cons, List.length_nil]
  omega

/-- A pattern that shares nothing with a name occurs in one of the constant ends of a head. -/
theorem infix_fileHead_iff {pattern : Bytes} {name : Text} (hname : Alphanumeric name)
    (hne : name ≠ []) (hpattern : ∀ b ∈ pattern, b.toNat < 48) (before after : Bytes) :
    pattern <:+: before ++ toUtf8 (fileHead name) ++ after ↔
      pattern <:+: before ++ toUtf8 dispositionHead ∨ pattern <:+: toUtf8 octetStreamHead ++ after := by
  have hname' : toUtf8 name ≠ [] := by
    intro h
    exact hne (toUtf8_injective (h.trans toUtf8_nil.symm))
  have hdisjoint : ∀ b ∈ toUtf8 name, b ∉ pattern := by
    intro b hb hmem
    exact hname.not_mem (hpattern b hmem) hb
  have hassoc : before ++ toUtf8 (fileHead name) ++ after =
      (before ++ toUtf8 dispositionHead) ++ (toUtf8 name ++ (toUtf8 octetStreamHead ++ after)) := by
    simp only [fileHead, toUtf8_append, List.append_assoc]
  rw [hassoc, infix_append_append_iff hname' hdisjoint]

theorem IsSendable.isPlain {boundary : Text} {chunk : Chunk} (h : IsSendable boundary chunk) :
    (sectionOf chunk).IsPlain (boundaryBytes boundary) where
  blank := by
    have hblank : ∀ b ∈ Multipart.blankLine, b.toNat < 48 := by simp [Multipart.blankLine]
    rw [sectionOf, infix_fileHead_iff h.alphanumeric h.ne_nil hblank]
    decide +kernel
  head := by
    apply not_infix_of_dashes boundary
    have hiff : [45, 45] <:+: [] ++ toUtf8 (fileHead chunk.1) ++ [] ↔ _ :=
      infix_fileHead_iff h.alphanumeric h.ne_nil (by simp) [] []
    rw [List.nil_append, List.append_nil] at hiff
    rw [sectionOf, hiff]
    decide +kernel
  content := h.content

theorem fileField_sectionOf {chunk : Chunk} (halpha : Alphanumeric chunk.1) (hne : chunk.1 ≠ []) :
    fileField (sectionOf chunk) = some chunk := by
  have hname : (((fileHead chunk.1).drop dispositionHead.length).takeWhile Char.isAlphanum) =
      chunk.1 := by
    rw [fileHead, List.drop_left' rfl, List.takeWhile_append_of_pos halpha]
    exact List.append_nil _
  rw [fileField, sectionOf, fromUtf8_toUtf8]
  simp only [hname]
  rw [if_pos ⟨trivial, hne⟩]

/-- The body of a batch is a form, and its fields are the chunks. -/
theorem formFields_uploadBatchBody {boundary : Text} (hboundary : IsBoundary boundary)
    {chunks : List Chunk} (hchunks : ∀ chunk ∈ chunks, IsSendable boundary chunk) :
    formFields boundary (uploadBatchBody boundary chunks) = some chunks := by
  have hplain : ∀ s ∈ chunks.map sectionOf, s.IsPlain (boundaryBytes boundary) := by
    intro s hs
    obtain ⟨chunk, hchunk, rfl⟩ := List.mem_map.mp hs
    exact (hchunks chunk hchunk).isPlain
  rw [formFields, uploadBatchBody_eq,
    Multipart.decode_encode (isMarker_boundaryBytes hboundary) hplain, Option.bind_some]
  clear hplain
  induction chunks with
  | nil => rfl
  | cons chunk rest ih =>
    rw [List.forall_mem_cons] at hchunks
    rw [List.map_cons, List.mapM_cons,
      fileField_sectionOf hchunks.1.alphanumeric hchunks.1.ne_nil, ih hchunks.2]
    rfl

end CooklangSync.System
