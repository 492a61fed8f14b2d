import CooklangSync.Server.Downloads
import CooklangSync.System.DownloadWire

/-!
# Stream wire — a batch download that breaks off

The stream of a batch download panics at the first chunk whose file is absent, and the body breaks
off where the marker of its section would begin.  The section before has then no marker after it,
and the client's scanner does not take it for a part.
-/

namespace CooklangSync.System

open Theory Client Server

/-- A body cut into pieces of some sizes, and a rest. -/
def cutInto : List Nat → Bytes → List Bytes
  | [], body => [body]
  | size :: sizes, body => body.take size :: cutInto sizes (body.drop size)

@[simp] theorem flatten_cutInto (sizes : List Nat) (body : Bytes) :
    (cutInto sizes body).flatten = body := by
  induction sizes generalizing body with
  | nil => exact List.append_nil body
  | cons size sizes ih => rw [cutInto, List.flatten_cons, ih, List.take_append_drop]

/-- A stream that breaks off has yielded what it would have yielded if it had ended there. -/
theorem processStream_broken (boundary : Bytes) (buffer : Bytes) (pieces : List Bytes)
    (e : SyncError) :
    processStream boundary buffer (pieces.map .ok ++ [.error e]) =
      ((processStream boundary buffer (pieces.map .ok)).1,
        (processStream boundary buffer (pieces.map .ok)).2 >>= fun _ ↦ .err e) := by
  induction pieces generalizing buffer with
  | nil => rfl
  | cons piece pieces ih =>
    rw [List.map_cons, List.cons_append, processStream, processStream]
    obtain ⟨items, rest | e' | _⟩ := processBuffer boundary (buffer ++ piece)
    · simp only [ih]
    · rfl
    · rfl

/-- The body up to the content of the last section. -/
def openBody (boundary : Text) (items : List Chunk) : Bytes :=
  items.flatMap (MultipartMixed.sectionBytes boundary)

/-- A section without the line ending that the next marker begins with. -/
def openSegment (item : Chunk) : Bytes := toUtf8 (headLines item.1) ++ (doubleCrlf ++ item.2)

theorem openBody_concat (boundary : Text) (items : List Chunk) (last : Chunk) :
    openBody boundary (items ++ [last]) = [13, 10] ++ (boundaryBytes boundary ++
      items.foldr (fun item rest ↦ segment item ++ (boundaryBytes boundary ++ rest))
        (openSegment last)) := by
  induction items with
  | nil =>
    simp only [openBody, List.nil_append, List.flatMap_cons, List.flatMap_nil, List.append_nil,
      MultipartMixed.sectionBytes, toUtf8_sectionHead, openSegment, List.foldr_nil, List.append_assoc]
  | cons item items ih =>
    have hcons : openBody boundary (item :: (items ++ [last])) =
        MultipartMixed.sectionBytes boundary item ++ openBody boundary (items ++ [last]) := rfl
    rw [List.cons_append, hcons, ih, MultipartMixed.sectionBytes, toUtf8_sectionHead]
    simp only [segment, List.foldr_cons, List.append_assoc]

theorem splitPieces_segments {boundary : Text} (hboundary : Alphanumeric boundary)
    {items : List Chunk} (hids : ∀ item ∈ items, Alphanumeric item.1)
    (hcontents : ∀ item ∈ items, ¬ boundaryBytes boundary <:+: item.2) (rest : Bytes) :
    splitPieces (boundaryBytes boundary) (boundaryBytes_ne_nil boundary)
        (items.foldr (fun item rest ↦ segment item ++ (boundaryBytes boundary ++ rest)) rest) =
      items.map segment ++
        splitPieces (boundaryBytes boundary) (boundaryBytes_ne_nil boundary) rest := by
  induction items with
  | nil => rfl
  | cons item items ih =>
    rw [List.forall_mem_cons] at hids hcontents
    rw [List.foldr_cons, splitPieces_append _ (not_infix_segment hboundary hids.1 hcontents.1),
      ih hids.2 hcontents.2]
    rfl

/-- Of a body that breaks off after a section, this last one is not a part. -/
theorem partsOf_openBody {boundary : Text} (hboundary : Alphanumeric boundary) {items : List Chunk}
    (hids : ∀ item ∈ items, Alphanumeric item.1)
    (hcontents : ∀ item ∈ items, ¬ boundaryBytes boundary <:+: item.2) :
    partsOf (boundaryBytes boundary) (boundaryBytes_ne_nil boundary) (openBody boundary items) =
      items.dropLast.map segment := by
  have hne := boundaryBytes_ne_nil boundary
  obtain rfl | ⟨init, last, rfl⟩ := List.eq_nil_or_concat' items
  · rw [partsOf, openBody, List.flatMap_nil, splitPieces_of_none hne (position_nil _)]
    rfl
  · have hcr := not_mem_boundaryBytes hboundary (b := 13) (by decide) (by decide)
    have hlf := not_mem_boundaryBytes hboundary (b := 10) (by decide) (by decide)
    have hfirst : ¬ boundaryBytes boundary <:+: [13, 10] ++ (boundaryBytes boundary).dropLast := by
      rw [infix_append_iff_of_not_mem hne (by simp [hcr, hlf])]
      exact not_infix_dropLast hne
    have hlast : splitPieces (boundaryBytes boundary) hne (openSegment last) = [openSegment last] := by
      apply splitPieces_of_none hne
      rw [position_eq_none_iff hne]
      intro hinside
      have hmem : last ∈ init ++ [last] := List.mem_append_right _ List.mem_cons_self
      refine not_infix_segment hboundary (hids last hmem) (hcontents last hmem)
        (hinside.trans ⟨[], [13, 10] ++ (boundaryBytes boundary).dropLast, ?_⟩)
      simp only [segment, openSegment, List.nil_append, List.append_assoc]
    rw [partsOf, openBody_concat, splitPieces_append _ hfirst, List.tail_cons,
      splitPieces_segments hboundary (fun item hitem ↦ hids item (List.mem_append_left _ hitem))
        (fun item hitem ↦ hcontents item (List.mem_append_left _ hitem)), hlast,
      List.dropLast_concat, List.dropLast_concat]

/-- The pieces of a stream, and the error of one that breaks off. -/
def piecesOf (sizes : List Nat) (stream : Bytes × Bool) : List (Except SyncError Bytes) :=
  (cutInto sizes stream.1).map .ok ++ if stream.2 then [] else [.error .reqwestError]

/-- What the client gets of the sections: all of them, or all but the last one and an error. -/
def received (items : List Chunk) (whole : Bool) : List Chunk × Outcome SyncError Unit :=
  if whole then (items, .ok ()) else (items.dropLast, .err .reqwestError)

theorem ids_present {FilePath : Type} (openFile : FilePath → Option Bytes)
    {chunks : List (Text × FilePath)} {item : Chunk}
    (h : item ∈ MultipartMixed.present openFile chunks) : ∃ chunk ∈ chunks, chunk.1 = item.1 := by
  induction chunks with
  | nil => cases h
  | cons chunk rest ih =>
    rw [MultipartMixed.present] at h
    cases hopen : openFile chunk.2 with
    | none =>
      rw [hopen] at h
      cases h
    | some content =>
      rw [hopen] at h
      rcases List.mem_cons.mp h with rfl | h
      · exact ⟨chunk, List.mem_cons_self, rfl⟩
      · obtain ⟨other, hother, hid⟩ := ih h
        exact ⟨other, List.mem_cons_of_mem chunk hother, hid⟩

/-- The client decodes a stream, whether it comes to its end or not, and however it is cut. -/
theorem downloadBatch_stream {FilePath : Type} (m : MultipartMixed FilePath)
    (openFile : FilePath → Option Bytes) (sizes : List Nat) (hboundary : Alphanumeric m.boundary)
    (hids : ∀ chunk ∈ m.chunks, Alphanumeric chunk.1)
    (hcontents : ∀ item ∈ MultipartMixed.present openFile m.chunks,
      ¬ boundaryBytes m.boundary <:+: item.2) :
    downloadBatch ⟨200, some m.contentType, piecesOf sizes (m.stream openFile)⟩ =
      received (MultipartMixed.present openFile m.chunks)
        (m.chunks.all fun chunk ↦ (openFile chunk.2).isSome) := by
  have hne := boundaryBytes_ne_nil m.boundary
  have hpresent : ∀ item ∈ MultipartMixed.present openFile m.chunks, Alphanumeric item.1 := by
    intro item hitem
    obtain ⟨chunk, hchunk, hid⟩ := ids_present openFile hitem
    exact hid ▸ hids chunk hchunk
  rw [downloadBatch, if_pos rfl]
  simp only [boundaryOf_contentType m hboundary, piecesOf, MultipartMixed.stream,
    MultipartMixed.streamFrom_eq]
  by_cases hall : m.chunks.all (fun chunk ↦ (openFile chunk.2).isSome) = true
  · rw [if_pos hall, if_pos hall, List.append_nil, processStream_eq hne, flatten_cutInto,
      partsOf_body hboundary hpresent hcontents, processParts_segments hpresent, received, if_pos hall]
    -- the empty part of an empty boundary is skipped
    have hrest : processParts (if m.boundary = [] then [[]] else []) = ([], .ok ()) := by
      split
      · rfl
      · rfl
    rw [hrest, List.append_nil]
  · have hdrop : ∀ item ∈ (MultipartMixed.present openFile m.chunks).dropLast,
        Alphanumeric item.1 :=
      fun item hitem ↦ hpresent item (List.dropLast_subset _ hitem)
    have hparts : processParts (partsOf _ hne (openBody m.boundary
        (MultipartMixed.present openFile m.chunks))) =
        ((MultipartMixed.present openFile m.chunks).dropLast, .ok ()) := by
      have hsegments := processParts_segments hdrop []
      rw [List.append_nil, processParts, List.append_nil] at hsegments
      rw [partsOf_openBody hboundary hpresent hcontents, hsegments]
    rw [openBody] at hparts
    rw [if_neg hall, if_neg hall, List.append_nil, processStream_broken, processStream_eq hne,
      flatten_cutInto, received, if_neg hall, hparts]
    rfl

end CooklangSync.System
