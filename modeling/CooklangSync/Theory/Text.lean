import CooklangSync.Theory.Search

/-!
# Text — strings as lists of characters, and their UTF-8 bytes

A string is the list of its characters; on the wire it is the list of its UTF-8 bytes.  The
operations are the ones a program uses on strings: decoding, splitting into lines or at a
separator, joining and trimming.
-/

namespace CooklangSync.Theory

abbrev Byte := UInt8
abbrev Bytes := List Byte
abbrev Text := List Char

/-! ## 1. UTF-8 -/

def toUtf8 (t : Text) : Bytes := t.flatMap String.utf8EncodeChar

/-- The characters of a UTF-8 byte string, or `none` when the bytes are not valid UTF-8. -/
def fromUtf8 (bs : Bytes) : Option Text :=
  (ByteArray.mk bs.toArray).utf8Decode?.map Array.toList

theorem utf8Encode_eq (t : Text) : t.utf8Encode = ByteArray.mk (toUtf8 t).toArray := by
  rw [List.utf8Encode]
  apply ByteArray.ext
  simp [toUtf8]

@[simp] theorem fromUtf8_toUtf8 (t : Text) : fromUtf8 (toUtf8 t) = some t := by
  unfold fromUtf8
  rw [← utf8Encode_eq, List.utf8Decode?_utf8Encode]
  simp

theorem toUtf8_injective : Function.Injective toUtf8 := by
  intro t t' h
  have hdecode := congrArg fromUtf8 h
  rw [fromUtf8_toUtf8, fromUtf8_toUtf8] at hdecode
  exact Option.some.inj hdecode

@[simp] theorem toUtf8_nil : toUtf8 [] = [] := rfl

@[simp] theorem toUtf8_append (s t : Text) : toUtf8 (s ++ t) = toUtf8 s ++ toUtf8 t :=
  List.flatMap_append

theorem toUtf8_cons (c : Char) (t : Text) : toUtf8 (c :: t) = String.utf8EncodeChar c ++ toUtf8 t :=
  rfl

/-- What decodes is the encoding of what it decodes to. -/
theorem toUtf8_of_fromUtf8 {bs : Bytes} {t : Text} (h : fromUtf8 bs = some t) : toUtf8 t = bs := by
  rw [fromUtf8, Option.map_eq_some_iff] at h
  obtain ⟨chars, hchars, rfl⟩ := h
  obtain ⟨l, hl⟩ := ByteArray.isSome_utf8Decode?_iff.mp (Option.isSome_iff_exists.mpr ⟨_, hchars⟩)
  rw [hl, List.utf8Decode?_utf8Encode, Option.some.injEq] at hchars
  rw [utf8Encode_eq] at hl
  have hbytes : bs = toUtf8 l := congrArg (fun b ↦ b.data.toList) hl
  rw [← hchars, hbytes]

/-! ## 2. Lines, separators and trimming -/

/-- A carriage return at the end of a line belongs to its line ending. -/
def stripCr (line : Text) : Text :=
  if line.getLast? = some '\r' then line.dropLast else line

/-- The lines of a text without their endings, which are `\n` or `\r\n`.  The last line needs no
ending, and then keeps a carriage return it ends in. -/
def lines (t : Text) : List Text :=
  let pieces := t.splitOn '\n'
  let last := pieces.getLastD []
  pieces.dropLast.map stripCr ++ if last = [] then [] else [last]

theorem lines_append_newline {line : Text} (hline : '\n' ∉ line) (rest : Text) :
    lines (line ++ '\n' :: rest) = stripCr line :: lines rest := by
  obtain ⟨p, ps, hp⟩ := List.exists_cons_of_ne_nil (List.splitOn_ne_nil '\n' rest)
  unfold lines
  rw [List.splitOn_append_cons_self_of_not_mem hline, hp]
  simp

theorem lines_of_not_mem {line : Text} (hline : '\n' ∉ line) (hne : line ≠ []) :
    lines line = [line] := by
  unfold lines
  rw [List.splitOn_eq_singleton hline]
  simp [hne]

/-- The Unicode `White_Space` characters. -/
def isWhitespace (c : Char) : Bool :=
  let n := c.toNat
  (9 ≤ n && n ≤ 13) || n == 32 || n == 0x85 || n == 0xA0 || n == 0x1680 ||
    (0x2000 ≤ n && n ≤ 0x200A) || n == 0x2028 || n == 0x2029 || n == 0x202F || n == 0x205F ||
    n == 0x3000

def trim (t : Text) : Text :=
  ((t.dropWhile isWhitespace).reverse.dropWhile isWhitespace).reverse

theorem trim_eq_self {t : Text} (h : ∀ c ∈ t, isWhitespace c = false) : trim t = t := by
  have hdrop : ∀ l : Text, (∀ c ∈ l, isWhitespace c = false) → l.dropWhile isWhitespace = l := by
    intro l hl
    cases l with
    | nil => rfl
    | cons c l => rw [List.dropWhile_cons_of_neg (by simp [hl c])]
  rw [trim, hdrop t h, hdrop t.reverse (fun c hc ↦ h c (List.mem_reverse.mp hc)),
    List.reverse_reverse]

/-- The second piece of a text split at every occurrence of `sep`. -/
def splitSecond (sep : Text) (hsep : sep ≠ []) (t : Text) : Option Text :=
  (splitPieces sep hsep t)[1]?

/-! ## 3. Lossy decoding -/

-- The character the bytes start with.
def firstChar (bs : Bytes) : Option (Char × Bytes) :=
  [1, 2, 3, 4].findSome? fun n ↦
    match fromUtf8 (bs.take n) with
    | some [c] => some (c, bs.drop n)
    | _ => none

/-- How many bytes at the front, which start no character, are replaced together: the longest run
that is the start of some character, or one byte. -/
def invalidLength (bs : Bytes) : Nat :=
  let within (lo hi : Nat) (i : Nat) : Bool :=
    match bs[i]? with
    | some b => lo ≤ b.toNat && b.toNat ≤ hi
    | none => false
  let second : Bool :=
    (within 0xE0 0xE0 0 && within 0xA0 0xBF 1) || (within 0xE1 0xEC 0 && within 0x80 0xBF 1) ||
    (within 0xED 0xED 0 && within 0x80 0x9F 1) || (within 0xEE 0xEF 0 && within 0x80 0xBF 1) ||
    (within 0xF0 0xF0 0 && within 0x90 0xBF 1) || (within 0xF1 0xF3 0 && within 0x80 0xBF 1) ||
    (within 0xF4 0xF4 0 && within 0x80 0x8F 1)
  if second then if within 0xF0 0xF4 0 && within 0x80 0xBF 2 then 3 else 2 else 1

def decodeLossy : Nat → Bytes → Text
  | 0, _ => []
  | _, [] => []
  | fuel + 1, bs =>
    match firstChar bs with
    | some (c, rest) => c :: decodeLossy fuel rest
    | none => '\uFFFD' :: decodeLossy fuel (bs.drop (invalidLength bs))

/-- Decoding that replaces what is not valid UTF-8. -/
def toStringLossy (bs : Bytes) : Text := (fromUtf8 bs).getD (decodeLossy bs.length bs)

@[simp] theorem toStringLossy_toUtf8 (t : Text) : toStringLossy (toUtf8 t) = t := by
  rw [toStringLossy, fromUtf8_toUtf8, Option.getD_some]

theorem decodeLossy_cons (fuel : Nat) (b : Byte) (bs : Bytes) :
    decodeLossy (fuel + 1) (b :: bs) =
      match firstChar (b :: bs) with
      | some (c, rest) => c :: decodeLossy fuel rest
      | none => '\uFFFD' :: decodeLossy fuel ((b :: bs).drop (invalidLength (b :: bs))) := rfl

theorem firstChar_eq_some {bs rest : Bytes} {c : Char} (h : firstChar bs = some (c, rest)) :
    bs = toUtf8 [c] ++ rest := by
  obtain ⟨n, -, hn⟩ := List.exists_of_findSome?_eq_some h
  split at hn
  · rename_i d hd
    cases hn
    rw [toUtf8_of_fromUtf8 hd, List.take_append_drop]
  · cases hn

theorem length_toUtf8_singleton_pos (c : Char) : 0 < (toUtf8 [c]).length := by
  rw [toUtf8_cons, toUtf8_nil, List.append_nil, String.length_utf8EncodeChar]
  exact c.utf8Size_pos

/-- A decoded text without a replacement has lost nothing. -/
theorem toUtf8_decodeLossy {fuel : Nat} {bs : Bytes} (hlen : bs.length ≤ fuel)
    (h : '\uFFFD' ∉ decodeLossy fuel bs) : toUtf8 (decodeLossy fuel bs) = bs := by
  induction fuel generalizing bs with
  | zero => rw [List.length_eq_zero_iff.mp (Nat.le_zero.mp hlen), decodeLossy, toUtf8_nil]
  | succ fuel ih =>
    cases bs with
    | nil => rfl
    | cons b bs =>
      rw [decodeLossy_cons] at h ⊢
      cases hfirst : firstChar (b :: bs) with
      | none => simp [hfirst] at h
      | some first =>
        obtain ⟨c, rest⟩ := first
        rw [hfirst] at h
        have heq := firstChar_eq_some hfirst
        have hsize := congrArg List.length heq
        have hpos := length_toUtf8_singleton_pos c
        rw [List.length_append] at hsize
        show toUtf8 (c :: decodeLossy fuel rest) = b :: bs
        rw [← List.singleton_append, toUtf8_append,
          ih (by omega) fun hmem ↦ h (List.mem_cons_of_mem c hmem), ← heq]

theorem infix_of_mem_decodeLossy {fuel : Nat} {bs : Bytes} {c : Char}
    (h : c ∈ decodeLossy fuel bs) (hc : c ≠ '\uFFFD') : toUtf8 [c] <:+: bs := by
  induction fuel generalizing bs with
  | zero => cases h
  | succ fuel ih =>
    cases bs with
    | nil => cases h
    | cons b bs =>
      rw [decodeLossy_cons] at h
      cases hfirst : firstChar (b :: bs) with
      | none =>
        simp only [hfirst] at h
        have hrest := ih ((List.mem_cons.mp h).resolve_left hc)
        exact hrest.trans (List.drop_suffix _ _).isInfix
      | some first =>
        obtain ⟨d, rest⟩ := first
        simp only [hfirst] at h
        rw [firstChar_eq_some hfirst]
        rcases List.mem_cons.mp h with rfl | h
        · exact (List.prefix_append _ _).isInfix
        · exact (ih h).trans (List.suffix_append _ _).isInfix

theorem toUtf8_toStringLossy {bs : Bytes} (h : '\uFFFD' ∉ toStringLossy bs) :
    toUtf8 (toStringLossy bs) = bs := by
  rw [toStringLossy] at h ⊢
  cases hbs : fromUtf8 bs with
  | some t => exact toUtf8_of_fromUtf8 hbs
  | none =>
    rw [hbs] at h
    exact toUtf8_decodeLossy Nat.le.refl h

/-- A character of the decoded text that is no replacement is in the bytes. -/
theorem infix_of_mem_toStringLossy {bs : Bytes} {c : Char} (h : c ∈ toStringLossy bs)
    (hc : c ≠ '\uFFFD') : toUtf8 [c] <:+: bs := by
  rw [toStringLossy] at h
  cases hbs : fromUtf8 bs with
  | some t =>
    rw [hbs] at h
    obtain ⟨s, r, rfl⟩ := List.append_of_mem h
    refine ⟨toUtf8 s, toUtf8 r, ?_⟩
    rw [← toUtf8_of_fromUtf8 hbs, ← toUtf8_append, ← toUtf8_append, List.append_assoc]
    rfl
  | none =>
    rw [hbs] at h
    exact infix_of_mem_decodeLossy h hc

/-! ## 4. Alphanumeric text -/

/-- All characters are ASCII letters or digits. -/
def Alphanumeric (t : Text) : Prop := ∀ c ∈ t, c.isAlphanum

instance (t : Text) : Decidable (Alphanumeric t) :=
  List.decidableBAll (fun c : Char ↦ c.isAlphanum = true) t

/-- Byte range of the ASCII letters and digits, both ends of the alphabet included. -/
theorem isAlphanum_range {c : Char} (h : c.isAlphanum) : 48 ≤ c.toNat ∧ c.toNat ≤ 122 := by
  change (decide ('A'.val ≤ c.val ∧ c.val ≤ 'Z'.val) ||
    (decide ('a'.val ≤ c.val) && decide (c.val ≤ 'z'.val)) ||
    (decide ('0'.val ≤ c.val) && decide (c.val ≤ '9'.val))) = true at h
  simp only [Bool.or_eq_true, Bool.and_eq_true, decide_eq_true_eq, UInt32.le_iff_toNat_le] at h
  change 48 ≤ c.val.toNat ∧ c.val.toNat ≤ 122
  simp only [show ('A'.val).toNat = 65 from rfl, show ('Z'.val).toNat = 90 from rfl,
    show ('a'.val).toNat = 97 from rfl, show ('z'.val).toNat = 122 from rfl,
    show ('0'.val).toNat = 48 from rfl, show ('9'.val).toNat = 57 from rfl] at h
  omega

theorem utf8EncodeChar_of_isAlphanum {c : Char} (h : c.isAlphanum) :
    String.utf8EncodeChar c = [UInt8.ofNat c.toNat] := by
  have hr := isAlphanum_range h
  unfold String.utf8EncodeChar
  change (if c.val.toNat ≤ 127 then [UInt8.ofNat c.val.toNat] else _) = _
  rw [if_pos (by have : c.val.toNat = c.toNat := rfl; omega)]
  rfl

/-- Every byte of an alphanumeric text lies between the bytes of `0` and `z`. -/
theorem Alphanumeric.byte_range {t : Text} (h : Alphanumeric t) {b : Byte} (hb : b ∈ toUtf8 t) :
    48 ≤ b.toNat ∧ b.toNat ≤ 122 := by
  unfold toUtf8 at hb
  obtain ⟨c, hc, hbc⟩ := List.mem_flatMap.mp hb
  rw [utf8EncodeChar_of_isAlphanum (h c hc), List.mem_singleton] at hbc
  have hr := isAlphanum_range (h c hc)
  rw [hbc, UInt8.toNat_ofNat_of_lt' (by change c.toNat < 256; omega)]
  exact hr

/-- A byte outside that range does not occur in an alphanumeric text. -/
theorem Alphanumeric.not_mem {t : Text} (h : Alphanumeric t) {b : Byte} (hb : b.toNat < 48) :
    b ∉ toUtf8 t := by
  intro hmem
  have hr := h.byte_range hmem
  omega

theorem Alphanumeric.not_mem_char {t : Text} (h : Alphanumeric t) {c : Char}
    (hc : c.isAlphanum = false) : c ∉ t := by
  intro hmem
  rw [h c hmem] at hc
  cases hc

theorem Alphanumeric.trim {t : Text} (h : Alphanumeric t) : trim t = t := by
  apply trim_eq_self
  intro c hc
  have hr := isAlphanum_range (h c hc)
  have : c.toNat ≠ 32 := by omega
  simp only [isWhitespace, Bool.or_eq_false_iff, Bool.and_eq_false_iff, decide_eq_false_iff_not,
    beq_eq_false_iff_ne]
  omega

end CooklangSync.Theory
