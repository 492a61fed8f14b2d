import CooklangSync.Client.Remote
import CooklangSync.Server.Response

/-!
# Download wire — the client decodes what the server emits

The body `MultipartMixed` emits is, after a first line ending, a sequence of boundary markers each
followed by one section.  None of the markers can be matched inside a section, so the segments the
client's scanner extracts are the sections.
-/

namespace CooklangSync.System

open Theory Client Server

/-! ## 1. The body as markers and segments -/

-- The lines of a section's head, without the boundary line before them.
def headLines (id : Text) : Text :=
  crlf ++ ("Content-Type: ".toList ++ sectionContentType ++
    (crlf ++ ("X-Chunk-ID: ".toList ++ id)))

/-- What stands between the boundary marker of a section and the next one. -/
def segment (item : Chunk) : Bytes :=
  toUtf8 (headLines item.1) ++ (doubleCrlf ++ (item.2 ++ [13, 10]))

def afterMarker (boundary : Text) : List Chunk → Bytes
  | [] => [45, 45, 13, 10]
  | item :: items => segment item ++ (boundaryBytes boundary ++ afterMarker boundary items)

theorem toUtf8_crlf : toUtf8 crlf = [13, 10] := rfl

theorem toUtf8_dashes : toUtf8 "--".toList = [45, 45] := rfl

theorem toUtf8_sectionHead (boundary id : Text) :
    toUtf8 (sectionHead boundary id) =
      [13, 10] ++ (boundaryBytes boundary ++ (toUtf8 (headLines id) ++ doubleCrlf)) := by
  simp only [sectionHead, headLines, boundaryBytes, toUtf8_append, toUtf8_crlf, doubleCrlf,
    List.append_assoc, List.cons_append, List.nil_append]

theorem body_eq (boundary : Text) (items : List Chunk) :
    items.flatMap (MultipartMixed.sectionBytes boundary) ++ toUtf8 (closing boundary) =
      [13, 10] ++ (boundaryBytes boundary ++ afterMarker boundary items) := by
  induction items with
  | nil =>
    simp only [List.flatMap_nil, List.nil_append, closing, toUtf8_append, boundaryBytes,
      afterMarker, toUtf8_crlf, toUtf8_dashes, List.append_assoc, List.cons_append]
  | cons item items ih =>
    rw [List.flatMap_cons, MultipartMixed.sectionBytes, toUtf8_sectionHead, List.append_assoc, ih]
    simp only [afterMarker, segment, List.append_assoc]

/-! ## 2. No marker inside a segment -/

-- The head up to the space before the id.
def headConstant : Bytes :=
  toUtf8 "\r\nContent-Type: text/plain; charset=utf-8\r\nX-Chunk-ID:".toList

-- Unfolding the constant would evaluate its text.
theorem sectionContentType_eq : sectionContentType = "text/plain; charset=utf-8".toList := rfl

theorem toUtf8_headLines (id : Text) : toUtf8 (headLines id) = headConstant ++ 32 :: toUtf8 id := by
  have hconst : toUtf8 crlf ++ (toUtf8 "Content-Type: ".toList ++ (toUtf8 sectionContentType ++
      (toUtf8 crlf ++ toUtf8 "X-Chunk-ID: ".toList))) = headConstant ++ [32] := by
    rw [crlf, sectionContentType_eq, headConstant, String.toList_ofList, String.toList_ofList,
      String.toList_ofList, String.toList_ofList, String.toList_ofList]
    decide
  simp only [headLines, toUtf8_append]
  rw [List.append_cons, ← hconst]
  simp only [List.append_assoc]

theorem not_infix_headConstant : ¬ ([45, 45] : Bytes) <:+: headConstant := by
  rw [headConstant, String.toList_ofList]
  decide

theorem doubleCrlf_not_infix_headConstant : ¬ doubleCrlf <:+: headConstant := by
  rw [headConstant, String.toList_ofList]
  decide +kernel

theorem mem_boundaryBytes_dash (boundary : Text) : (45 : Byte) ∈ boundaryBytes boundary := by
  rw [boundaryBytes, toUtf8_append, toUtf8_dashes]
  simp

theorem not_mem_boundaryBytes {boundary : Text} (hboundary : Alphanumeric boundary) {b : Byte}
    (hb : b.toNat < 48) (hdash : b ≠ 45) : b ∉ boundaryBytes boundary := by
  rw [boundaryBytes, toUtf8_append, toUtf8_dashes]
  simp [hdash, hboundary.not_mem hb]

/-- A marker does not occur where two dashes do not. -/
theorem not_infix_of_dashes {l : Bytes} (boundary : Text) (h : ¬ [45, 45] <:+: l) :
    ¬ boundaryBytes boundary <:+: l := by
  intro hi
  apply h
  refine List.IsInfix.trans ?_ hi
  rw [boundaryBytes, toUtf8_append, toUtf8_dashes]
  exact (List.prefix_append _ _).isInfix

/-- The marker after a segment is the first one: neither the segment nor its seam with the marker
holds another. -/
theorem not_infix_segment {boundary : Text} (hboundary : Alphanumeric boundary) {item : Chunk}
    (hid : Alphanumeric item.1) (hcontent : ¬ boundaryBytes boundary <:+: item.2) :
    ¬ boundaryBytes boundary <:+: segment item ++ (boundaryBytes boundary).dropLast := by
  have hcr := not_mem_boundaryBytes hboundary (b := 13) (by decide) (by decide)
  have hlf := not_mem_boundaryBytes hboundary (b := 10) (by decide) (by decide)
  have hspace := not_mem_boundaryBytes hboundary (b := 32) (by decide) (by decide)
  have hids : ¬ boundaryBytes boundary <:+: toUtf8 item.1 := fun hi ↦
    hid.not_mem (by decide) (hi.subset (mem_boundaryBytes_dash boundary))
  have hblank : ∀ x ∈ doubleCrlf, x ∉ boundaryBytes boundary := by
    simp [doubleCrlf, hcr, hlf]
  have hending : ∀ x ∈ ([13, 10] : Bytes), x ∉ boundaryBytes boundary := by
    simp [hcr, hlf]
  rw [segment, toUtf8_headLines]
  simp only [List.append_assoc, List.cons_append]
  -- at the space before the id, at the blank line and at the ending before the marker
  rw [infix_append_cons_iff hspace, infix_append_append_iff (by decide) hblank]
  change ¬ (_ ∨ _ ∨ boundaryBytes boundary <:+:
    item.2 ++ ([13, 10] ++ (boundaryBytes boundary).dropLast))
  rw [infix_append_append_iff (by decide) hending]
  have hconst := not_infix_of_dashes boundary not_infix_headConstant
  have hseam := not_infix_dropLast (boundaryBytes_ne_nil boundary)
  simp [hconst, hids, hcontent, hseam]

/-! ## 3. The segments are the parts -/

/-- What follows the first marker splits into the segments of the sections and what the closing
marker leaves. -/
theorem splitPieces_afterMarker {boundary : Text} (hboundary : Alphanumeric boundary)
    {items : List Chunk} (hids : ∀ item ∈ items, Alphanumeric item.1)
    (hcontents : ∀ item ∈ items, ¬ boundaryBytes boundary <:+: item.2) :
    splitPieces (boundaryBytes boundary) (boundaryBytes_ne_nil boundary)
        (afterMarker boundary items) =
      items.map segment ++
        splitPieces (boundaryBytes boundary) (boundaryBytes_ne_nil boundary) [45, 45, 13, 10] := by
  induction items with
  | nil => rfl
  | cons item items ih =>
    rw [List.forall_mem_cons] at hids hcontents
    rw [afterMarker, splitPieces_append _ (not_infix_segment hboundary hids.1 hcontents.1),
      ih hids.2 hcontents.2]
    rfl

-- With the empty boundary the two dashes that close the body are themselves a marker; the part
-- before them is empty.
theorem splitPieces_closing {boundary : Text} (hboundary : Alphanumeric boundary) :
    (splitPieces (boundaryBytes boundary) (boundaryBytes_ne_nil boundary)
      [45, 45, 13, 10]).dropLast = if boundary = [] then [[]] else [] := by
  by_cases hnil : boundary = []
  · have hself : position (boundaryBytes []) [45, 45, 13, 10] = some 0 := by decide
    have hrest : position (boundaryBytes []) [13, 10] = none := by decide
    subst hnil
    rw [splitPieces_of_some _ hself, if_pos rfl]
    change ([] :: splitPieces (boundaryBytes []) _ [13, 10]).dropLast = _
    rw [splitPieces_of_none _ hrest]
    rfl
  · obtain ⟨c, t, rfl⟩ := List.exists_cons_of_ne_nil hnil
    have hmem : UInt8.ofNat c.toNat ∈ boundaryBytes (c :: t) := by
      rw [boundaryBytes, toUtf8_append, toUtf8_cons,
        utf8EncodeChar_of_isAlphanum (hboundary c (by simp))]
      simp
    have hnone : position (boundaryBytes (c :: t)) [45, 45, 13, 10] = none := by
      rw [position_eq_none_iff (boundaryBytes_ne_nil _)]
      intro hi
      have hr := isAlphanum_range (hboundary c (by simp))
      have hbyte : (UInt8.ofNat c.toNat).toNat = c.toNat :=
        UInt8.toNat_ofNat_of_lt' (by change c.toNat < 256; omega)
      have hle : ∀ b ∈ ([45, 45, 13, 10] : Bytes), b.toNat < 48 := by decide +kernel
      have hlt := hle _ (hi.subset hmem)
      omega
    rw [splitPieces_of_none _ hnone, if_neg hnil]
    rfl

/-- The parts of the body are the segments of its sections, up to one empty part. -/
theorem partsOf_body {boundary : Text} (hboundary : Alphanumeric boundary) {items : List Chunk}
    (hids : ∀ item ∈ items, Alphanumeric item.1)
    (hcontents : ∀ item ∈ items, ¬ boundaryBytes boundary <:+: item.2) :
    partsOf (boundaryBytes boundary) (boundaryBytes_ne_nil boundary)
        (items.flatMap (MultipartMixed.sectionBytes boundary) ++ toUtf8 (closing boundary)) =
      items.map segment ++ if boundary = [] then [[]] else [] := by
  have hcr := not_mem_boundaryBytes hboundary (b := 13) (by decide) (by decide)
  have hlf := not_mem_boundaryBytes hboundary (b := 10) (by decide) (by decide)
  have hfirst : ¬ boundaryBytes boundary <:+: [13, 10] ++ (boundaryBytes boundary).dropLast := by
    rw [infix_append_iff_of_not_mem (boundaryBytes_ne_nil boundary) (by simp [hcr, hlf])]
    exact not_infix_dropLast (boundaryBytes_ne_nil boundary)
  have hne := splitPieces_ne_nil (boundaryBytes_ne_nil boundary) [45, 45, 13, 10]
  rw [partsOf, body_eq, splitPieces_append _ hfirst, List.tail_cons,
    splitPieces_afterMarker hboundary hids hcontents, List.dropLast_append_of_ne_nil hne,
    splitPieces_closing hboundary]

/-! ## 4. A segment decodes to its chunk -/

theorem findDoubleCrlf_segment {item : Chunk} (hid : Alphanumeric item.1) :
    findDoubleCrlf (segment item) = some (toUtf8 (headLines item.1)).length := by
  have hno : ¬ doubleCrlf <:+: toUtf8 (headLines item.1) ++ doubleCrlf.dropLast := by
    have hspace : (32 : Byte) ∉ doubleCrlf := by decide
    have hdisj : ∀ x ∈ toUtf8 item.1, x ∉ doubleCrlf := by
      intro x hx hmem
      have hlt : ∀ y ∈ doubleCrlf, y.toNat < 48 := by decide +kernel
      exact hid.not_mem (hlt x hmem) hx
    rw [toUtf8_headLines, List.append_assoc, List.cons_append, infix_append_cons_iff hspace,
      infix_append_iff_of_not_mem (by decide) hdisj]
    rintro (h | h)
    · exact doubleCrlf_not_infix_headConstant h
    · exact not_infix_dropLast (by decide) h
  exact position_of_append (by decide) hno _

theorem lines_headLines {id : Text} (hid : Alphanumeric id) :
    lines (headLines id) = [[], "Content-Type: text/plain; charset=utf-8".toList,
      "X-Chunk-ID: ".toList ++ id] := by
  have hlast : '\n' ∉ "X-Chunk-ID: ".toList ++ id := by
    rw [List.mem_append, not_or]
    exact ⟨by decide, hid.not_mem_char rfl⟩
  have hcrlf : crlf = "\r".toList ++ ['\n'] := by decide
  have htype : "Content-Type: text/plain; charset=utf-8\r".toList =
      "Content-Type: ".toList ++ sectionContentType ++ "\r".toList := by
    rw [sectionContentType_eq, ← String.toList_append, ← String.toList_append]
    exact congrArg String.toList (by decide)
  have hsplit : headLines id = "\r".toList ++ '\n' ::
      ("Content-Type: text/plain; charset=utf-8\r".toList ++ '\n' ::
        ("X-Chunk-ID: ".toList ++ id)) := by
    rw [headLines, hcrlf, htype]
    simp only [List.append_assoc, List.singleton_append]
  have hstrip : stripCr "Content-Type: text/plain; charset=utf-8\r".toList =
      "Content-Type: text/plain; charset=utf-8".toList := by
    rw [String.toList_ofList, String.toList_ofList]
    decide
  rw [hsplit, lines_append_newline (by decide), lines_append_newline (by decide),
    lines_of_not_mem hlast (List.append_ne_nil_of_left_ne_nil (by decide) _), hstrip]
  rfl

theorem chunkIdOf_headLines {id : Text} (hid : Alphanumeric id) :
    chunkIdOf (headLines id) = some id := by
  have hfind : (lines (headLines id)).find? (chunkIdHeader.isPrefixOf ·) =
      some ("X-Chunk-ID: ".toList ++ id) := by
    rw [lines_headLines hid]
    rfl
  have hname : ¬ headerSeparator <:+: "X-Chunk-ID".toList ++ headerSeparator.dropLast := by decide
  have hvalue : position headerSeparator id = none := by
    rw [position_eq_none_iff (by decide)]
    intro hi
    exact hid.not_mem_char (c := ' ') rfl (hi.subset (by decide))
  have hline : "X-Chunk-ID: ".toList = "X-Chunk-ID".toList ++ headerSeparator := by decide
  rw [chunkIdOf, hfind, Option.bind_some, splitSecond, hline, List.append_assoc,
    splitPieces_append _ hname, splitPieces_of_none _ hvalue]
  rfl

theorem processPart_segment {item : Chunk} (hid : Alphanumeric item.1) :
    processPart (segment item) = .ok (some item) := by
  have hlen : (segment item).length =
      (toUtf8 (headLines item.1)).length + 4 + (item.2.length + 2) := by
    simp only [segment, doubleCrlf, List.length_append, List.length_cons, List.length_nil]
    omega
  have hhead : (segment item).take (toUtf8 (headLines item.1)).length =
      toUtf8 (headLines item.1) := by
    rw [segment, List.take_left]
  have hcontent : (segment item).drop ((toUtf8 (headLines item.1)).length + 4) =
      item.2 ++ [13, 10] := by
    rw [segment, ← List.append_assoc]
    exact List.drop_left' (by simp [doubleCrlf])
  rw [processPart_eq, findDoubleCrlf_segment hid]
  simp only [hhead, fromUtf8_toUtf8, chunkIdOf_headLines hid]
  rw [if_neg (by omega), hcontent, hid.trim]
  rw [show (segment item).length - 2 - ((toUtf8 (headLines item.1)).length + 4) = item.2.length by
    omega, List.take_left]

theorem processParts_segments {items : List Chunk} (hids : ∀ item ∈ items, Alphanumeric item.1)
    (parts : List Bytes) :
    processParts (items.map segment ++ parts) =
      (items ++ (processParts parts).1, (processParts parts).2) := by
  induction items with
  | nil => rfl
  | cons item items ih =>
    rw [List.forall_mem_cons] at hids
    rw [List.map_cons, List.cons_append, processParts, processPart_segment hids.1,
      ih hids.2]
    rfl

/-! ## 5. The round trip -/

theorem boundaryOf_contentType {FilePath : Type} (m : MultipartMixed FilePath)
    (hboundary : Alphanumeric m.boundary) : boundaryOf m.contentType = some m.boundary := by
  have hname : ¬ boundaryParameter <:+: "multipart/mixed; ".toList ++
      boundaryParameter.dropLast := by decide
  have hvalue : position boundaryParameter m.boundary = none := by
    rw [position_eq_none_iff (by decide)]
    intro hi
    exact hboundary.not_mem_char (c := '=') rfl (hi.subset (by decide))
  have hline : "multipart/mixed; boundary=".toList =
      "multipart/mixed; ".toList ++ boundaryParameter := by decide
  have hheader : m.contentType = "multipart/mixed; ".toList ++ (boundaryParameter ++ m.boundary) :=
    (congrArg (· ++ m.boundary) hline).trans (List.append_assoc _ _ _)
  rw [boundaryOf, splitSecond, hheader, splitPieces_append _ hname, splitPieces_of_none _ hvalue]
  rfl

/-- The client decodes the body the server emits to exactly the chunks it was made of, however the
network cuts it into pieces. -/
theorem downloadBatch_intoResponse {FilePath : Type} (m : MultipartMixed FilePath)
    (openFile : FilePath → Option Bytes) (items : List Chunk) (pieces : List Bytes)
    (hitems : m.sections openFile = some items)
    (hboundary : Alphanumeric m.boundary) (hids : ∀ item ∈ items, Alphanumeric item.1)
    (hcontents : ∀ item ∈ items, ¬ toUtf8 ("--".toList ++ m.boundary) <:+: item.2)
    (hpieces : m.intoResponse openFile = some pieces.flatten) :
    downloadBatch ⟨200, some m.contentType, pieces.map .ok⟩ = (items, .ok ()) := by
  have hbody : pieces.flatten = items.flatMap (MultipartMixed.sectionBytes m.boundary) ++
      toUtf8 (closing m.boundary) := by
    rw [MultipartMixed.intoResponse, hitems] at hpieces
    exact (Option.some.inj hpieces).symm
  rw [downloadBatch, if_pos rfl]
  simp only [boundaryOf_contentType m hboundary, processStream_eq (boundaryBytes_ne_nil _)]
  rw [hbody, partsOf_body hboundary hids hcontents, processParts_segments hids]
  -- the empty part of an empty boundary is skipped
  have hrest : processParts (if m.boundary = [] then [[]] else []) = ([], .ok ()) := by
    split
    · rfl
    · rfl
  rw [hrest, List.append_nil]

theorem intoResponse_twoChunks :
    (⟨"B7".toList, [("a1".toList, []), ("b".toList, toUtf8 "x\r\n\r\n-".toList)]⟩ :
      MultipartMixed Bytes).intoResponse some =
    some ([toUtf8 "\r\n--B".toList,
      toUtf8 ("7\r\nContent-Type: text/plain; charset=utf-8\r\nX-Chunk-ID: a1\r\n\r\n" ++
        "\r\n--B7\r\nContent-Type: text/plain; charset=utf-8\r\nX-Chunk-ID: b\r\n\r\n" ++
        "x\r\n\r\n-\r\n--B7--\r\n").toList].flatten) := by
  have hsections : (⟨"B7".toList, [("a1".toList, []), ("b".toList, toUtf8 "x\r\n\r\n-".toList)]⟩ :
      MultipartMixed Bytes).sections some =
      some [("a1".toList, []), ("b".toList, toUtf8 "x\r\n\r\n-".toList)] := rfl
  rw [MultipartMixed.intoResponse, hsections]
  simp only [Option.map_some, List.flatMap_cons, List.flatMap_nil, MultipartMixed.sectionBytes,
    sectionHead, closing, crlf, sectionContentType_eq, ← toUtf8_append, ← String.toList_append,
    List.flatten_cons, List.flatten_nil, List.append_nil]
  exact congrArg (fun text : String ↦ some (toUtf8 text.toList)) (by decide +kernel)

-- An empty chunk and one with a blank line and a final dash; the cut is inside the first marker.
theorem downloadBatch_intoResponse_cut :
    downloadBatch ⟨200, some "multipart/mixed; boundary=B7".toList,
      [toUtf8 "\r\n--B".toList,
        toUtf8 ("7\r\nContent-Type: text/plain; charset=utf-8\r\nX-Chunk-ID: a1\r\n\r\n" ++
          "\r\n--B7\r\nContent-Type: text/plain; charset=utf-8\r\nX-Chunk-ID: b\r\n\r\n" ++
          "x\r\n\r\n-\r\n--B7--\r\n").toList].map .ok⟩ =
      ([("a1".toList, []), ("b".toList, toUtf8 "x\r\n\r\n-".toList)], .ok ()) :=
  downloadBatch_intoResponse
    (⟨"B7".toList, [("a1".toList, []), ("b".toList, toUtf8 "x\r\n\r\n-".toList)]⟩ :
      MultipartMixed Bytes) some _ _ rfl (by decide) (by decide)
    (by decide) intoResponse_twoChunks

end CooklangSync.System
