import CooklangSync.Client.Errors
import CooklangSync.Theory.Outcome

/-!
# Remote — decoding the response of a batch download

`Remote::download_batch` reads a `multipart/mixed` response body piece by piece.  It keeps the
undecoded bytes in a buffer, and after every piece extracts the complete parts: the bytes between
two consecutive occurrences of the boundary marker.

The scanner's loop is described without the buffer by `partsOf`, the segments of the whole body
between consecutive boundary markers, and `processParts`, which processes them in order
(`decodeBody_eq`).
-/

namespace CooklangSync.Client

open Theory

/-- A downloaded chunk: its id and its bytes. -/
abbrev Chunk := Text × Bytes

/-! ## 1. The scanner -/

/-- `windows` panics on a window size of zero. -/
def findBoundary (data boundary : Bytes) : Outcome SyncError (Option Nat) :=
  if boundary = [] then .panic else .ok (position boundary data)

def doubleCrlf : Bytes := [13, 10, 13, 10]

def findDoubleCrlf (data : Bytes) : Option Nat := position doubleCrlf data

/-- The next complete part of the buffer, and the buffer from its closing boundary on. -/
def extractNextPart (buffer boundary : Bytes) : Outcome SyncError (Option (Bytes × Bytes)) := do
  match ← findBoundary buffer boundary with
  | some start =>
    let rest ← .ofBounds (slice buffer (start + boundary.length) buffer.length)
    match ← findBoundary rest boundary with
    | some nextBoundary =>
      let part ← .ofBounds (slice buffer (start + boundary.length)
        (start + boundary.length + nextBoundary))
      let remaining ← .ofBounds (slice buffer (start + boundary.length + nextBoundary)
        buffer.length)
      pure (some (part, remaining))
    | none => pure none
  | none => pure none

def chunkIdHeader : Text := "X-Chunk-ID:".toList

def headerSeparator : Text := ": ".toList

/-- The value of the first `X-Chunk-ID:` line, untrimmed. -/
def chunkIdOf (headers : Text) : Option Text :=
  ((lines headers).find? (chunkIdHeader.isPrefixOf ·)).bind
    (splitSecond headerSeparator (by decide))

/-- A part without a blank line is skipped.  The content is what follows the blank line, less the
line ending before the boundary. -/
def processPart (part : Bytes) : Outcome SyncError (Option Chunk) :=
  match findDoubleCrlf part with
  | some headersEnd => do
    let headerBytes ← .ofBounds (slice part 0 headersEnd)
    let headers ← .okOr (.batchDownloadError "Invalid headers") (fromUtf8 headerBytes)
    let chunkId ← .okOr (.batchDownloadError "No chunk ID found") (chunkIdOf headers)
    -- `part.len() - 2` is an unsigned subtraction
    let contentEnd ← .ofBounds (if 2 ≤ part.length then some (part.length - 2) else none)
    let content ← .ofBounds (slice part (headersEnd + 4) contentEnd)
    pure (some (trim chunkId, content))
  | none => pure none

theorem extractNextPart_eq {boundary : Bytes} (hb : boundary ≠ []) (buffer : Bytes) :
    extractNextPart buffer boundary =
      match position boundary buffer with
      | none => .ok none
      | some start =>
        match position boundary (buffer.drop (start + boundary.length)) with
        | none => .ok none
        | some next => .ok (some ((buffer.drop (start + boundary.length)).take next,
            buffer.drop (start + boundary.length + next))) := by
  unfold extractNextPart findBoundary
  simp only [if_neg hb, Outcome.ok_bind]
  cases hs : position boundary buffer with
  | none => rfl
  | some start =>
    have hle := position_add_length_le hb hs
    have hrest : slice buffer (start + boundary.length) buffer.length =
        some (buffer.drop (start + boundary.length)) := by
      rw [slice, if_pos ⟨hle, le_refl _⟩, List.take_of_length_le (by rw [List.length_drop])]
    simp only [hrest, Outcome.ofBounds_some, Outcome.ok_bind]
    cases hn : position boundary (buffer.drop (start + boundary.length)) with
    | none => rfl
    | some next =>
      have hle' := position_add_length_le hb hn
      rw [List.length_drop] at hle'
      have hpart : slice buffer (start + boundary.length) (start + boundary.length + next) =
          some ((buffer.drop (start + boundary.length)).take next) := by
        rw [slice, if_pos (by omega), Nat.add_sub_cancel_left]
      have hrem : slice buffer (start + boundary.length + next) buffer.length =
          some (buffer.drop (start + boundary.length + next)) := by
        rw [slice, if_pos (by omega), List.take_of_length_le (by rw [List.length_drop])]
      simp only [hpart, hrem, Outcome.ofBounds_some, Outcome.ok_bind, Outcome.pure_eq_ok]

/-- Extraction shortens the buffer by at least the opening boundary. -/
theorem extractNextPart_length {boundary buffer part remaining : Bytes}
    (h : extractNextPart buffer boundary = .ok (some (part, remaining))) :
    remaining.length < buffer.length := by
  by_cases hb : boundary = []
  · rw [extractNextPart, findBoundary, if_pos hb] at h
    cases h
  · rw [extractNextPart_eq hb] at h
    have hpos := List.length_pos_iff.mpr hb
    cases hs : position boundary buffer with
    | none => rw [hs] at h; cases h
    | some start =>
      have hle := position_add_length_le hb hs
      rw [hs] at h
      cases hn : position boundary (buffer.drop (start + boundary.length)) with
      | none => simp only [hn] at h; cases h
      | some next =>
        simp only [hn, Outcome.ok.injEq, Option.some.injEq, Prod.mk.injEq] at h
        rw [← h.2, List.length_drop]
        omega

/-- The inner loop: processes the complete parts of the buffer and yields their chunks.  Returns
the undecoded rest of the buffer. -/
def processBuffer (boundary buffer : Bytes) : List Chunk × Outcome SyncError Bytes :=
  match _h : extractNextPart buffer boundary with
  | .panic => ([], .panic)
  | .err e => ([], .err e)
  | .ok none => ([], .ok buffer)
  | .ok (some (part, remaining)) =>
    match processPart part with
    | .panic => ([], .panic)
    | .err e => ([], .err e)
    | .ok none => processBuffer boundary remaining
    | .ok (some item) =>
      let r := processBuffer boundary remaining
      (item :: r.1, r.2)
termination_by buffer.length
decreasing_by all_goals exact extractNextPart_length _h

/-- The outer loop over the pieces of the body, each of which may be a transport error.  What is
left in the buffer at the end of the body is dropped. -/
def processStream (boundary : Bytes) :
    Bytes → List (Except SyncError Bytes) → List Chunk × Outcome SyncError Unit
  | _, [] => ([], .ok ())
  | _, .error e :: _ => ([], .err e)
  | buffer, .ok piece :: pieces =>
    match processBuffer boundary (buffer ++ piece) with
    | (items, .ok rest) =>
      let r := processStream boundary rest pieces
      (items ++ r.1, r.2)
    | (items, .err e) => (items, .err e)
    | (items, .panic) => (items, .panic)

def boundaryBytes (boundary : Text) : Bytes := toUtf8 ("--".toList ++ boundary)

def boundaryParameter : Text := "boundary=".toList

-- Whatever stands between the first two `boundary=` of the header, or after the only one.
def boundaryOf (contentType : Text) : Option Text :=
  splitSecond boundaryParameter (by decide) contentType

/-- A response to `POST /chunks/download`; `contentType` is absent when the header is missing or
not visible ASCII. -/
structure BatchResponse where
  status : Nat
  contentType : Option Text
  body : List (Except SyncError Bytes)

/-- The stream `download_batch` makes of a response: the chunks it yields, and how it ends. -/
def downloadBatch (response : BatchResponse) : List Chunk × Outcome SyncError Unit :=
  if response.status = 200 then
    match response.contentType with
    | none => ([], .err (.batchDownloadError "No content-type header"))
    | some contentType =>
      match boundaryOf contentType with
      | none => ([], .err (.batchDownloadError "No boundary in content-type header"))
      | some boundary => processStream (boundaryBytes boundary) [] response.body
  else if response.status = 401 then ([], .err .unauthorized)
  else if response.status = 402 then ([], .err .paymentRequired)
  else ([], .err (.unknown "Download batch failed with status" response.status))

/-! ## 2. The scanner as a function of the whole body -/

/-- The segments between consecutive boundary markers: what precedes the first marker and what
follows the last one is not a part. -/
def partsOf (boundary : Bytes) (hb : boundary ≠ []) (body : Bytes) : List Bytes :=
  (splitPieces boundary hb body).tail.dropLast

def processParts : List Bytes → List Chunk × Outcome SyncError Unit
  | [] => ([], .ok ())
  | part :: parts =>
    match processPart part with
    | .panic => ([], .panic)
    | .err e => ([], .err e)
    | .ok none => processParts parts
    | .ok (some item) => (item :: (processParts parts).1, (processParts parts).2)

-- What the buffer holds once its complete parts are extracted: everything when it has no complete
-- part, otherwise the last boundary and what follows it.
def leftover (boundary : Bytes) (hb : boundary ≠ []) (buffer : Bytes) : Bytes :=
  if partsOf boundary hb buffer = [] then buffer
  else boundary ++ (splitPieces boundary hb buffer).getLastD []

/-- Processing more parts after the ones that all went through. -/
def andThen {α : Type} (r : List Chunk × Outcome SyncError α)
    (f : α → List Chunk × Outcome SyncError Unit) : List Chunk × Outcome SyncError Unit :=
  match r.2 with
  | .ok a => (r.1 ++ (f a).1, (f a).2)
  | .err e => (r.1, .err e)
  | .panic => (r.1, .panic)

theorem processParts_append (ps qs : List Bytes) :
    processParts (ps ++ qs) = andThen (processParts ps) fun _ ↦ processParts qs := by
  induction ps with
  | nil => rfl
  | cons p ps ih =>
    simp only [List.cons_append, processParts]
    cases hp : processPart p with
    | panic => rfl
    | err e => rfl
    | ok item =>
      cases item with
      | none => simpa using ih
      | some item =>
        simp only [ih]
        unfold andThen
        cases (processParts ps).2 <;> rfl

theorem partsOf_of_none {boundary : Bytes} (hb : boundary ≠ []) {body : Bytes}
    (h : position boundary body = none) : partsOf boundary hb body = [] := by
  rw [partsOf, splitPieces_of_none hb h]
  rfl

theorem partsOf_of_some {boundary : Bytes} (hb : boundary ≠ []) {body : Bytes} {start : Nat}
    (h : position boundary body = some start) :
    partsOf boundary hb body =
      (splitPieces boundary hb (body.drop (start + boundary.length))).dropLast := by
  rw [partsOf, splitPieces_of_some hb h]
  rfl

theorem drop_position {boundary data : Bytes} {start : Nat} (hb : boundary ≠ [])
    (h : position boundary data = some start) :
    data.drop start = boundary ++ data.drop (start + boundary.length) := by
  obtain ⟨pre, suf, rfl, rfl, -⟩ := (position_eq_some_iff hb data start).mp h
  rw [List.drop_left, ← List.append_assoc, ← List.length_append, List.drop_left]

theorem splitPieces_boundary_append {boundary : Bytes} (hb : boundary ≠ []) (rest : Bytes) :
    splitPieces boundary hb (boundary ++ rest) = [] :: splitPieces boundary hb rest := by
  have hno : ¬ boundary <:+: [] ++ boundary.dropLast := by simpa using not_infix_dropLast hb
  simpa using splitPieces_append hb hno rest

theorem partsOf_boundary_append {boundary : Bytes} (hb : boundary ≠ []) (rest : Bytes) :
    partsOf boundary hb (boundary ++ rest) = (splitPieces boundary hb rest).dropLast := by
  rw [partsOf, splitPieces_boundary_append]
  rfl

theorem leftover_boundary_append {boundary : Bytes} (hb : boundary ≠ []) (rest : Bytes) :
    leftover boundary hb (boundary ++ rest) =
      boundary ++ (splitPieces boundary hb rest).getLastD [] := by
  rw [leftover, partsOf_boundary_append, splitPieces_boundary_append]
  obtain ⟨p, ps, hp⟩ := List.exists_cons_of_ne_nil (splitPieces_ne_nil hb rest)
  cases hpos : position boundary rest with
  | none => simp [splitPieces_of_none hb hpos]
  | some i =>
    obtain ⟨q, qs, hq⟩ := List.exists_cons_of_ne_nil
      (splitPieces_ne_nil hb (rest.drop (i + boundary.length)))
    rw [splitPieces_of_some hb hpos, hq]
    simp

-- The four results of an extraction, as equations of the inner loop.
theorem processBuffer_none {boundary buffer : Bytes}
    (h : extractNextPart buffer boundary = .ok none) :
    processBuffer boundary buffer = ([], .ok buffer) := by
  rw [processBuffer]
  split <;> rename_i heq <;> rw [h] at heq <;> cases heq

theorem processBuffer_some {boundary buffer part remaining : Bytes}
    (h : extractNextPart buffer boundary = .ok (some (part, remaining))) :
    processBuffer boundary buffer =
      match processPart part with
      | .panic => ([], .panic)
      | .err e => ([], .err e)
      | .ok none => processBuffer boundary remaining
      | .ok (some item) =>
        (item :: (processBuffer boundary remaining).1, (processBuffer boundary remaining).2) := by
  rw [processBuffer]
  split <;> rename_i heq <;> rw [h] at heq <;> cases heq
  rfl

/-- The inner loop processes the parts of the buffer in order and keeps the leftover. -/
theorem processBuffer_eq {boundary : Bytes} (hb : boundary ≠ []) (buffer : Bytes) :
    processBuffer boundary buffer =
      ((processParts (partsOf boundary hb buffer)).1,
        (processParts (partsOf boundary hb buffer)).2 >>= fun _ ↦
          .ok (leftover boundary hb buffer)) := by
  induction buffer using (measure List.length).wf.induction with
  | h buffer ih =>
    have hex := extractNextPart_eq hb buffer
    cases hs : position boundary buffer with
    | none =>
      simp only [hs] at hex
      rw [processBuffer_none hex, leftover, if_pos (partsOf_of_none hb hs),
        partsOf_of_none hb hs]
      rfl
    | some start =>
      simp only [hs] at hex
      have hparts := partsOf_of_some hb hs
      cases hn : position boundary (buffer.drop (start + boundary.length)) with
      | none =>
        simp only [hn] at hex
        have hnil : partsOf boundary hb buffer = [] := by
          rw [hparts, splitPieces_of_none hb hn]
          rfl
        rw [processBuffer_none hex, leftover, if_pos hnil, hnil]
        rfl
      | some next =>
        simp only [hn] at hex
        have hrem := drop_position hb hn
        rw [List.drop_drop] at hrem
        have hlt := extractNextPart_length hex
        rw [hrem] at hex hlt
        -- the remaining buffer starts at a boundary, so its parts are the later parts
        obtain ⟨q, qs, hq⟩ := List.exists_cons_of_ne_nil (splitPieces_ne_nil hb
          ((buffer.drop (start + boundary.length)).drop (next + boundary.length)))
        have hcons : partsOf boundary hb buffer =
            (buffer.drop (start + boundary.length)).take next :: partsOf boundary hb (boundary ++
              (buffer.drop (start + boundary.length)).drop (next + boundary.length)) := by
          rw [hparts, splitPieces_of_some hb hn, partsOf_boundary_append, hq]
          rfl
        have hleft : leftover boundary hb buffer = leftover boundary hb (boundary ++
            (buffer.drop (start + boundary.length)).drop (next + boundary.length)) := by
          rw [leftover, if_neg (by simp [hcons]), leftover_boundary_append,
            splitPieces_of_some hb hs, splitPieces_of_some hb hn, hq]
          simp
        rw [processBuffer_some hex, ih _ hlt, hcons, hleft, processParts]
        cases processPart ((buffer.drop (start + boundary.length)).take next) with
        | panic => rfl
        | err e => rfl
        | ok item => cases item <;> rfl

theorem partsOf_append {boundary : Bytes} (hb : boundary ≠ []) (buffer more : Bytes) :
    partsOf boundary hb (buffer ++ more) =
      partsOf boundary hb buffer ++ partsOf boundary hb (leftover boundary hb buffer ++ more) := by
  by_cases hnil : partsOf boundary hb buffer = []
  · rw [leftover, if_pos hnil, hnil, List.nil_append]
  · rw [leftover, if_neg hnil, List.append_assoc, partsOf_boundary_append, partsOf,
      splitPieces_append_right, partsOf]
    obtain ⟨p, ps, hp⟩ := List.exists_cons_of_ne_nil (splitPieces_ne_nil hb buffer)
    obtain ⟨q, qs, hq⟩ := List.exists_cons_of_ne_nil (splitPieces_ne_nil hb
      ((splitPieces boundary hb buffer).getLastD [] ++ more))
    rw [partsOf, hp] at hnil
    rw [hq, hp]
    obtain ⟨r, rs, rfl⟩ : ∃ r rs, ps = r :: rs := by
      cases ps with
      | nil => simp at hnil
      | cons r rs => exact ⟨r, rs, rfl⟩
    simp

theorem partsOf_leftover {boundary : Bytes} (hb : boundary ≠ []) (buffer : Bytes) :
    partsOf boundary hb (leftover boundary hb buffer) = [] := by
  rw [leftover]
  split
  · assumption
  · rw [partsOf_boundary_append,
      splitPieces_of_none hb (position_getLastD_splitPieces hb buffer)]
    rfl

/-- From a buffer without complete parts, the outer loop processes the parts of the buffer
continued by the pieces, however these are cut. -/
theorem processStream_from {boundary : Bytes} (hb : boundary ≠ []) (buffer : Bytes)
    (hbuf : partsOf boundary hb buffer = []) (pieces : List Bytes) :
    processStream boundary buffer (pieces.map .ok) =
      processParts (partsOf boundary hb (buffer ++ pieces.flatten)) := by
  induction pieces generalizing buffer with
  | nil => simp [processStream, hbuf, processParts]
  | cons piece pieces ih =>
    have hrec := ih (leftover boundary hb (buffer ++ piece)) (partsOf_leftover hb _)
    rw [List.map_cons, processStream, processBuffer_eq hb, List.flatten_cons, ← List.append_assoc,
      partsOf_append hb (buffer ++ piece), processParts_append, ← hrec]
    unfold andThen
    cases (processParts (partsOf boundary hb (buffer ++ piece))).2 <;> rfl

/-- Decoding a body depends on its bytes alone: the stream yields what processing the parts of the
whole body yields, and ends as that ends. -/
theorem processStream_eq {boundary : Bytes} (hb : boundary ≠ []) (pieces : List Bytes) :
    processStream boundary [] (pieces.map .ok) =
      processParts (partsOf boundary hb pieces.flatten) := by
  simpa using processStream_from hb [] (partsOf_of_none hb (position_nil boundary)) pieces

/-- Two ways of cutting a body give the same, which is what the body gives in one piece. -/
theorem processStream_of_flatten_eq {boundary : Bytes} (hb : boundary ≠ [])
    {pieces pieces' : List Bytes} (h : pieces.flatten = pieces'.flatten) :
    processStream boundary [] (pieces.map .ok) = processStream boundary [] (pieces'.map .ok) ∧
      processStream boundary [] (pieces.map .ok) =
        processStream boundary [] [.ok pieces.flatten] := by
  have hwhole : processStream boundary [] [.ok pieces.flatten] =
      processParts (partsOf boundary hb pieces.flatten) := by
    have hone := processStream_eq hb [pieces.flatten]
    rwa [List.flatten_singleton] at hone
  constructor
  · rw [processStream_eq hb, processStream_eq hb, h]
  · rw [processStream_eq hb, hwhole]

-- A body with one part, cut inside the boundary and inside the blank line.
theorem processStream_of_two_cuts :
    let pieces := [toUtf8 "-".toList, toUtf8 "-B\r\nX-Chunk-ID: a\r\n\r".toList,
      toUtf8 "\nxy\r\n--B--".toList]
    let pieces' := [toUtf8 "--B\r\nX-Chunk-ID: a\r\n\r\nxy\r\n--".toList, toUtf8 "B--".toList]
    processStream (toUtf8 "--B".toList) [] (pieces.map .ok) =
        processStream (toUtf8 "--B".toList) [] (pieces'.map .ok) ∧
      processStream (toUtf8 "--B".toList) [] (pieces.map .ok) =
        processStream (toUtf8 "--B".toList) [] [.ok pieces.flatten] :=
  processStream_of_flatten_eq (by decide) (by decide)

theorem boundaryBytes_ne_nil (boundary : Text) : boundaryBytes boundary ≠ [] := by
  rw [boundaryBytes, toUtf8_append]
  exact List.append_ne_nil_of_left_ne_nil (by decide) _

/-! ## 3. Safety of the decoder -/

-- The part is skipped, or the bytes before its blank line are UTF-8 text that names a chunk.
def readableHeaders (part : Bytes) : Bool :=
  match findDoubleCrlf part with
  | none => true
  | some headersEnd => ((fromUtf8 (part.take headersEnd)).bind chunkIdOf).isSome

-- Fewer than two bytes follow the blank line, so there is no line ending to strip.
def cutShort (part : Bytes) : Bool :=
  match findDoubleCrlf part with
  | none => false
  | some headersEnd => part.length < headersEnd + 6

/-- The decoder ended normally or with its own error. -/
def DecodesSafely (result : List Chunk × Outcome SyncError Unit) : Prop :=
  result.2 = .ok () ∨ ∃ message, result.2 = .err (.batchDownloadError message)

theorem findDoubleCrlf_le {part : Bytes} {headersEnd : Nat}
    (h : findDoubleCrlf part = some headersEnd) : headersEnd + 4 ≤ part.length :=
  position_add_length_le (by decide) h

theorem processPart_eq (part : Bytes) :
    processPart part =
      match findDoubleCrlf part with
      | none => .ok none
      | some headersEnd =>
        match fromUtf8 (part.take headersEnd) with
        | none => .err (.batchDownloadError "Invalid headers")
        | some headers =>
          match chunkIdOf headers with
          | none => .err (.batchDownloadError "No chunk ID found")
          | some chunkId =>
            if part.length < headersEnd + 6 then .panic
            else .ok (some (trim chunkId,
              (part.drop (headersEnd + 4)).take (part.length - 2 - (headersEnd + 4)))) := by
  unfold processPart
  cases hcrlf : findDoubleCrlf part with
  | none => rfl
  | some headersEnd =>
    have hle := findDoubleCrlf_le hcrlf
    have hhead : slice part 0 headersEnd = some (part.take headersEnd) := by
      rw [slice, if_pos (by omega), List.drop_zero, Nat.sub_zero]
    simp only [hhead, Outcome.ofBounds_some, Outcome.ok_bind, if_pos (by omega : 2 ≤ part.length)]
    cases fromUtf8 (part.take headersEnd) with
    | none => rfl
    | some headers =>
      simp only [Outcome.okOr_some, Outcome.ok_bind]
      cases chunkIdOf headers with
      | none => rfl
      | some chunkId =>
        by_cases hshort : part.length < headersEnd + 6
        · have hnone : slice part (headersEnd + 4) (part.length - 2) = none :=
            (slice_eq_none_iff _ _ _).mpr (by omega)
          simp only [Outcome.okOr_some, Outcome.ok_bind, hnone, Outcome.ofBounds_none,
            Outcome.panic_bind, if_pos hshort]
        · have hsome : slice part (headersEnd + 4) (part.length - 2) =
              some ((part.drop (headersEnd + 4)).take (part.length - 2 - (headersEnd + 4))) := by
            rw [slice, if_pos (by omega)]
          simp only [Outcome.okOr_some, Outcome.ok_bind, hsome, Outcome.ofBounds_some,
            Outcome.pure_eq_ok, if_neg hshort]

theorem processPart_of_unreadable {part : Bytes} (h : readableHeaders part = false) :
    ∃ message, processPart part = .err (.batchDownloadError message) := by
  rw [processPart_eq]
  unfold readableHeaders at h
  cases hcrlf : findDoubleCrlf part with
  | none => simp [hcrlf] at h
  | some headersEnd =>
    simp only [hcrlf] at h ⊢
    cases hutf : fromUtf8 (part.take headersEnd) with
    | none => exact ⟨_, rfl⟩
    | some headers =>
      simp only [hutf, Option.bind_some] at h ⊢
      cases hid : chunkIdOf headers with
      | none => exact ⟨_, rfl⟩
      | some chunkId => simp [hid] at h

theorem processPart_of_readable {part : Bytes} (h : readableHeaders part = true) :
    processPart part = .panic ∧ cutShort part = true ∨
      (∃ item, processPart part = .ok item) ∧ cutShort part = false := by
  rw [processPart_eq]
  unfold readableHeaders at h
  unfold cutShort
  cases hcrlf : findDoubleCrlf part with
  | none => exact .inr ⟨⟨_, rfl⟩, rfl⟩
  | some headersEnd =>
    simp only [hcrlf] at h ⊢
    obtain ⟨chunkId, hid⟩ := Option.isSome_iff_exists.mp h
    obtain ⟨headers, hutf, hid⟩ := Option.bind_eq_some_iff.mp hid
    simp only [hutf, hid]
    by_cases hshort : part.length < headersEnd + 6
    · exact .inl ⟨if_pos hshort, decide_eq_true hshort⟩
    · exact .inr ⟨⟨_, if_neg hshort⟩, decide_eq_false hshort⟩

/-- Processing stops at the first part with unreadable headers, and until then panics exactly at a
part that is cut short. -/
theorem processParts_safe_iff (parts : List Bytes) :
    DecodesSafely (processParts parts) ↔
      ∀ part ∈ parts.takeWhile readableHeaders, cutShort part = false := by
  induction parts with
  | nil => simp [processParts, DecodesSafely]
  | cons part parts ih =>
    cases hread : readableHeaders part with
    | false =>
      obtain ⟨message, herr⟩ := processPart_of_unreadable hread
      simp [processParts, herr, hread, DecodesSafely]
    | true =>
      rw [List.takeWhile_cons_of_pos hread, List.forall_mem_cons, ← ih]
      rcases processPart_of_readable hread with ⟨hpanic, hshort⟩ | ⟨⟨item, hok⟩, hshort⟩
      · simp [processParts, hpanic, hshort, DecodesSafely]
      · cases item <;> simp [processParts, hok, hshort, DecodesSafely]

/-- The decoder is safe on a response exactly when no part before the first unreadable one ends
within two bytes of its blank line. -/
theorem downloadBatch_safe_iff (contentType : Option Text) (pieces : List Bytes) :
    DecodesSafely (downloadBatch ⟨200, contentType, pieces.map .ok⟩) ↔
      ∀ boundary, contentType.bind boundaryOf = some boundary →
        ∀ part ∈ (partsOf (boundaryBytes boundary) (boundaryBytes_ne_nil boundary)
          pieces.flatten).takeWhile readableHeaders, cutShort part = false := by
  unfold downloadBatch
  simp only [if_true]
  cases contentType with
  | none => simp [DecodesSafely]
  | some contentType =>
    simp only [Option.bind_some]
    cases hb : boundaryOf contentType with
    | none => simp [DecodesSafely]
    | some boundary =>
      simp only [processStream_eq (boundaryBytes_ne_nil boundary), processParts_safe_iff,
        Option.some.injEq]
      exact ⟨fun h _ heq ↦ heq ▸ h, fun h ↦ h boundary rfl⟩

-- An empty chunk whose sender leaves out the line ending before the closing boundary.
theorem downloadBatch_panics :
    ¬ ∀ (contentType : Text) (pieces : List Bytes),
      DecodesSafely (downloadBatch ⟨200, some contentType, pieces.map .ok⟩) := by
  intro h
  have hbody := h "multipart/mixed; boundary=B".toList
    [toUtf8 "--B\r\nX-Chunk-ID: a\r\n\r\n--B--\r\n".toList]
  have hboundary : boundaryOf "multipart/mixed; boundary=B".toList = some "B".toList := by
    rw [boundaryOf, splitSecond, splitPieces_of_some (i := 17) _ (by decide),
      splitPieces_of_none _ (by decide)]
    decide
  have hparts : partsOf (boundaryBytes "B".toList) (boundaryBytes_ne_nil _)
      [toUtf8 "--B\r\nX-Chunk-ID: a\r\n\r\n--B--\r\n".toList].flatten =
        [toUtf8 "\r\nX-Chunk-ID: a\r\n\r\n".toList] := by
    rw [partsOf, splitPieces_of_some (i := 0) _ (by decide),
      splitPieces_of_some (i := 19) _ (by decide), splitPieces_of_none _ (by decide)]
    decide
  have hpanic : processPart (toUtf8 "\r\nX-Chunk-ID: a\r\n\r\n".toList) = .panic := by
    decide +kernel
  rw [downloadBatch, if_pos rfl] at hbody
  simp only [hboundary, processStream_eq (boundaryBytes_ne_nil _)] at hbody
  rw [hparts, processParts, hpanic] at hbody
  simp [DecodesSafely] at hbody

end CooklangSync.Client
