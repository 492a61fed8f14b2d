import CooklangSync.Theory.Text

/-!
# Multipart — a body of sections between markers

A section is a head, a blank line and a content.  One marker stands before each section, and a last
one closes the body.  The sections are read back when the marker is in none of them.
-/

namespace CooklangSync.Theory

namespace Multipart

def newline : Bytes := [13, 10]
def blankLine : Bytes := [13, 10, 13, 10]
def closing : Bytes := [45, 45, 13, 10]

structure Section where
  head : Bytes
  content : Bytes
  deriving DecidableEq, Repr

/-- What stands between the marker of the section and the next one. -/
def Section.bytes (s : Section) : Bytes :=
  newline ++ (s.head ++ (blankLine ++ (s.content ++ newline)))

variable (marker : Bytes)

def afterMarker : List Section → Bytes
  | [] => closing
  | s :: rest => s.bytes ++ (marker ++ afterMarker rest)

def encode (sections : List Section) : Bytes := marker ++ afterMarker marker sections

def decodeSection (piece : Bytes) : Option Section :=
  match position blankLine piece with
  | none => none
  | some headEnd =>
    let s : Section := ⟨(piece.take headEnd).drop 2, (piece.drop (headEnd + 4)).dropLast.dropLast⟩
    if s.bytes = piece then some s else none

def decode (hne : marker ≠ []) (body : Bytes) : Option (List Section) :=
  match splitPieces marker hne body with
  | [] :: pieces => if pieces.getLast? = some closing then pieces.dropLast.mapM decodeSection else none
  | _ => none

/-- The marker is longer than the dashes that close the body, and stands in one line. -/
structure IsMarker : Prop where
  length : 2 < marker.length
  return_not_mem : 13 ∉ marker
  newline_not_mem : 10 ∉ marker

/-- The head ends at the first blank line, and the marker is nowhere. -/
structure Section.IsPlain (s : Section) : Prop where
  blank : ¬ blankLine <:+: newline ++ s.head ++ blankLine.dropLast
  head : ¬ marker <:+: s.head
  content : ¬ marker <:+: s.content

theorem Section.decodeSection_bytes {s : Section}
    (h : ¬ blankLine <:+: newline ++ s.head ++ blankLine.dropLast) :
    decodeSection s.bytes = some s := by
  have hassoc : s.bytes = (newline ++ s.head) ++ (blankLine ++ (s.content ++ newline)) := by
    rw [bytes, List.append_assoc]
  have hposition : position blankLine s.bytes = some (newline ++ s.head).length := by
    rw [hassoc]
    exact position_of_append (by decide) h _
  have hhead : (s.bytes.take (newline ++ s.head).length).drop 2 = s.head := by
    rw [hassoc, List.take_left' rfl]
    rfl
  have hlength : ((newline ++ s.head) ++ blankLine).length = (newline ++ s.head).length + 4 :=
    List.length_append
  have hcontent : (s.bytes.drop ((newline ++ s.head).length + 4)).dropLast.dropLast = s.content := by
    rw [hassoc, ← List.append_assoc, ← hlength, List.drop_left' rfl]
    simp [newline]
  rw [decodeSection, hposition]
  simp only [hhead, hcontent, if_true]

section Markers

variable {marker} (hmarker : IsMarker marker)
include hmarker

theorem IsMarker.ne_nil : marker ≠ [] := by
  rintro rfl
  exact absurd hmarker.length (by decide)

theorem IsMarker.not_mem_newline {b : Byte} (hb : b ∈ newline) : b ∉ marker := by
  simp only [newline, List.mem_cons, List.not_mem_nil, or_false] at hb
  rcases hb with rfl | rfl
  · exact hmarker.return_not_mem
  · exact hmarker.newline_not_mem

theorem IsMarker.position_closing : position marker closing = none := by
  rw [position_eq_none_iff hmarker.ne_nil]
  intro h
  have hnewline : ∀ b ∈ newline, b ∉ marker := fun b hb ↦ hmarker.not_mem_newline hb
  have hdashes : marker <:+: [45, 45] ∨ marker <:+: [] :=
    (infix_append_append_iff (by decide) hnewline [45, 45] []).mp h
  have hlong := hmarker.length
  rcases hdashes with h | h
  · have hle := h.length_le
    simp only [List.length_cons, List.length_nil] at hle
    omega
  · exact hmarker.ne_nil (List.infix_nil.mp h)

/-- The first marker after a section is the one of the next. -/
theorem Section.IsPlain.unmarked {s : Section} (hs : s.IsPlain marker) :
    ¬ marker <:+: s.bytes ++ marker.dropLast := by
  have hnewline : ∀ b ∈ newline, b ∉ marker := fun b hb ↦ hmarker.not_mem_newline hb
  have hblank : ∀ b ∈ blankLine, b ∉ marker := by
    intro b hb
    have hb : b ∈ newline ++ newline := hb
    exact hnewline b ((List.mem_append.mp hb).elim id id)
  rw [bytes, List.append_assoc, List.append_assoc, List.append_assoc, List.append_assoc,
    infix_append_iff_of_not_mem hmarker.ne_nil hnewline,
    infix_append_append_iff (by decide) hblank, infix_append_append_iff (by decide) hnewline]
  rintro (h | h | h)
  · exact hs.head h
  · exact hs.content h
  · exact not_infix_dropLast hmarker.ne_nil h

theorem splitPieces_afterMarker {sections : List Section}
    (hplain : ∀ s ∈ sections, s.IsPlain marker) :
    splitPieces marker hmarker.ne_nil (afterMarker marker sections) =
      sections.map Section.bytes ++ [closing] := by
  induction sections with
  | nil => exact splitPieces_of_none _ hmarker.position_closing
  | cons s rest ih =>
    rw [List.forall_mem_cons] at hplain
    rw [afterMarker, splitPieces_append _ (hplain.1.unmarked hmarker), ih hplain.2]
    rfl

/-- The sections of a body are read back from it. -/
theorem decode_encode {sections : List Section} (hplain : ∀ s ∈ sections, s.IsPlain marker) :
    decode marker hmarker.ne_nil (encode marker sections) = some sections := by
  have hsplit : splitPieces marker hmarker.ne_nil (encode marker sections) =
      [] :: (sections.map Section.bytes ++ [closing]) := by
    rw [← splitPieces_afterMarker hmarker hplain]
    exact @splitPieces_append _ _ _ [] hmarker.ne_nil (not_infix_dropLast hmarker.ne_nil) _
  have hsections : (sections.map Section.bytes).mapM decodeSection = some sections := by
    clear hsplit
    induction sections with
    | nil => rfl
    | cons s rest ih =>
      rw [List.forall_mem_cons] at hplain
      rw [List.map_cons, List.mapM_cons, s.decodeSection_bytes hplain.1.blank, ih hplain.2]
      rfl
  rw [decode, hsplit]
  simp only [List.getLast?_concat, if_true, List.dropLast_concat, hsections]

end Markers

end Multipart

end CooklangSync.Theory
