import CooklangSync.Theory.Text
import Mathlib.Algebra.BigOperators.Group.List.Basic
import Mathlib.Algebra.GroupWithZero.Nat

/-!
# FormData — names and values as the body of a form

`application/x-www-form-urlencoded`: a byte stands for itself, a space is a plus sign, and any other
byte takes three.
-/

namespace CooklangSync.Theory

/-! ## 1. Encoding -/

/-- Letters, digits and `*`, `-`, `.`, `_`. -/
def standsForItself (b : Byte) : Bool :=
  (48 ≤ b.toNat && b.toNat ≤ 57) || (65 ≤ b.toNat && b.toNat ≤ 90) ||
    (97 ≤ b.toNat && b.toNat ≤ 122) || b == 42 || b == 45 || b == 46 || b == 95

def upperHexDigit (n : Nat) : Byte := UInt8.ofNat (if n < 10 then 48 + n else 55 + n)

def urlencodeByte (b : Byte) : Bytes :=
  if standsForItself b then [b]
  else if b = 32 then [43]
  else [37, upperHexDigit (b.toNat / 16), upperHexDigit (b.toNat % 16)]

def urlencode (t : Text) : Bytes := (toUtf8 t).flatMap urlencodeByte

def urlencodePair (pair : Text × Text) : Bytes := urlencode pair.1 ++ 61 :: urlencode pair.2

def urlencodePairs (pairs : List (Text × Text)) : Bytes :=
  List.intercalate [38] (pairs.map urlencodePair)

example : urlencode "a[] b".toList = "a%5B%5D+b".toUTF8.toList := by decide +kernel

/-! ## 2. Lengths -/

/-- The bytes an encoded text takes. -/
def urlencodedLength (t : Text) : Nat := ((toUtf8 t).map fun b ↦ (urlencodeByte b).length).sum

theorem length_urlencode (t : Text) : (urlencode t).length = urlencodedLength t := by
  rw [urlencode, urlencodedLength, List.length_flatMap]

@[simp] theorem urlencodedLength_nil : urlencodedLength [] = 0 := rfl

@[simp] theorem urlencodedLength_append (s t : Text) :
    urlencodedLength (s ++ t) = urlencodedLength s + urlencodedLength t := by
  simp [urlencodedLength]

theorem urlencodedLength_cons (c : Char) (t : Text) :
    urlencodedLength (c :: t) = urlencodedLength [c] + urlencodedLength t :=
  urlencodedLength_append [c] t

theorem standsForItself_of_isAlphanum {c : Char} (h : c.isAlphanum) :
    standsForItself (UInt8.ofNat c.toNat) = true := by
  have hrange := isAlphanum_range h
  have hcode : (UInt8.ofNat c.toNat).toNat = c.toNat :=
    UInt8.toNat_ofNat_of_lt' (by change c.toNat < 256; omega)
  change (decide ('A'.val ≤ c.val ∧ c.val ≤ 'Z'.val) ||
    (decide ('a'.val ≤ c.val) && decide (c.val ≤ 'z'.val)) ||
    (decide ('0'.val ≤ c.val) && decide (c.val ≤ '9'.val))) = true at h
  simp only [Bool.or_eq_true, Bool.and_eq_true, decide_eq_true_eq, UInt32.le_iff_toNat_le] at h
  change ((65 ≤ c.toNat ∧ c.toNat ≤ 90) ∨ (97 ≤ c.toNat ∧ c.toNat ≤ 122)) ∨
    (48 ≤ c.toNat ∧ c.toNat ≤ 57) at h
  simp only [standsForItself, hcode, Bool.or_eq_true, Bool.and_eq_true, decide_eq_true_eq]
  omega

theorem urlencodedLength_of_alphanumeric {t : Text} (h : Alphanumeric t) :
    urlencodedLength t = t.length := by
  induction t with
  | nil => rfl
  | cons c t ih =>
    have hc : c.isAlphanum := h c (List.mem_cons_self ..)
    have ht := ih fun c' hc' ↦ h c' (List.mem_cons_of_mem c hc')
    have hone : urlencodedLength [c] = 1 := by
      rw [urlencodedLength, toUtf8_cons, utf8EncodeChar_of_isAlphanum hc, toUtf8_nil,
        List.append_nil, List.map_singleton, urlencodeByte, standsForItself_of_isAlphanum hc]
      rfl
    rw [urlencodedLength_cons, hone, ht, List.length_cons]
    omega

theorem length_urlencodePair (pair : Text × Text) :
    (urlencodePair pair).length = urlencodedLength pair.1 + 1 + urlencodedLength pair.2 := by
  rw [urlencodePair, List.length_append, List.length_cons, length_urlencode, length_urlencode]
  omega

/-- The size of texts joined with a separator, for any notion of size that adds up. -/
theorem size_intercalate {α : Type} {size : List α → Nat}
    (hadd : ∀ s t, size (s ++ t) = size s + size t) (sep : α) (pieces : List (List α)) :
    size (List.intercalate [sep] pieces) =
      (pieces.map size).sum + (pieces.length - 1) * size [sep] := by
  induction pieces with
  | nil =>
    have hnil := hadd [] []
    rw [List.append_nil] at hnil
    simp only [List.intercalate_nil, List.map_nil, List.sum_nil, List.length_nil]
    omega
  | cons piece rest ih =>
    cases rest with
    | nil => simp
    | cons next rest =>
      have hcount : (piece :: next :: rest).length - 1 = (next :: rest).length - 1 + 1 := by simp
      have hsum : ((piece :: next :: rest).map size).sum =
          size piece + ((next :: rest).map size).sum := by rw [List.map_cons, List.sum_cons]
      rw [List.intercalate_cons_cons, hadd, hadd, ih, hsum, hcount, Nat.succ_mul]
      omega

/-- A separator between any two pairs. -/
theorem length_urlencodePairs (pairs : List (Text × Text)) :
    (urlencodePairs pairs).length =
      (pairs.map fun pair ↦ urlencodedLength pair.1 + 1 + urlencodedLength pair.2).sum +
        (pairs.length - 1) := by
  have hlengths : (pairs.map urlencodePair).map List.length =
      pairs.map fun pair ↦ urlencodedLength pair.1 + 1 + urlencodedLength pair.2 := by
    rw [List.map_map]
    exact List.map_congr_left fun pair _ ↦ length_urlencodePair pair
  rw [urlencodePairs, size_intercalate (fun s t ↦ List.length_append), hlengths]
  simp

/-! ## 3. Decoding -/

def hexValue (b : Byte) : Option Nat :=
  let n := b.toNat
  if 48 ≤ n ∧ n ≤ 57 then some (n - 48)
  else if 65 ≤ n ∧ n ≤ 70 then some (n - 55)
  else if 97 ≤ n ∧ n ≤ 102 then some (n - 87)
  else none

/-- The byte that two hexadecimal digits spell. -/
def spelledByte (high low : Byte) : Option Byte := do
  let h ← hexValue high
  let l ← hexValue low
  pure (UInt8.ofNat (16 * h + l))

def plainByte (b : Byte) : Byte := if b = 43 then 32 else b

/-- A percent sign that spells no byte stands for itself. -/
def urldecode : Bytes → Bytes
  | b :: high :: low :: rest =>
    match if b = 37 then spelledByte high low else none with
    | some spelled => spelled :: urldecode rest
    | none => plainByte b :: urldecode (high :: low :: rest)
  | b :: rest => plainByte b :: urldecode rest
  | [] => []

/-- The name before the first equals sign, and the value after it. -/
def urldecodePair (piece : Bytes) : Option (Text × Text) := do
  let name ← fromUtf8 (urldecode (piece.takeWhile (· ≠ 61)))
  let value ← fromUtf8 (urldecode ((piece.dropWhile (· ≠ 61)).drop 1))
  pure (name, value)

def urldecodePairs (body : Bytes) : Option (List (Text × Text)) :=
  ((body.splitOn 38).filter (· ≠ [])).mapM urldecodePair

theorem hexValue_upperHexDigit {n : Nat} (h : n < 16) : hexValue (upperHexDigit n) = some n := by
  have hall : ∀ n < 16, hexValue (upperHexDigit n) = some n := by decide
  exact hall n h

theorem urldecode_cons_of_ne {b : Byte} (h : b ≠ 37) (rest : Bytes) :
    urldecode (b :: rest) = plainByte b :: urldecode rest := by
  match rest with
  | [] => rfl
  | [_] => rfl
  | high :: low :: rest => rw [urldecode, if_neg h]

theorem urldecode_urlencodeByte (b : Byte) (rest : Bytes) :
    urldecode (urlencodeByte b ++ rest) = b :: urldecode rest := by
  unfold urlencodeByte
  split
  · next hself =>
    have hpercent : b ≠ 37 := by
      rintro rfl
      exact absurd hself (by decide)
    have hplus : b ≠ 43 := by
      rintro rfl
      exact absurd hself (by decide)
    rw [List.singleton_append, urldecode_cons_of_ne hpercent, plainByte, if_neg hplus]
  · split
    · next hspace =>
      rw [List.singleton_append, urldecode_cons_of_ne (by decide), hspace]
      rfl
    · have hlt := b.toNat_lt
      have hspelled : spelledByte (upperHexDigit (b.toNat / 16)) (upperHexDigit (b.toNat % 16)) =
          some b := by
        rw [spelledByte, hexValue_upperHexDigit (by omega), hexValue_upperHexDigit (by omega)]
        change some (UInt8.ofNat (16 * (b.toNat / 16) + b.toNat % 16)) = some b
        rw [Nat.div_add_mod, UInt8.ofNat_toNat]
      rw [List.cons_append, List.cons_append, List.singleton_append, urldecode, if_pos rfl, hspelled]

theorem urldecode_urlencode (t : Text) : urldecode (urlencode t) = toUtf8 t := by
  unfold urlencode
  induction toUtf8 t with
  | nil => rfl
  | cons b bs ih => rw [List.flatMap_cons, urldecode_urlencodeByte, ih]

/-- What an encoded text is made of. -/
theorem mem_urlencode {t : Text} {b : Byte} (h : b ∈ urlencode t) :
    standsForItself b = true ∨ b = 43 ∨ b = 37 := by
  have hdigit : ∀ n < 16, standsForItself (upperHexDigit n) = true := by decide
  obtain ⟨a, -, hb⟩ := List.mem_flatMap.mp h
  have ha := a.toNat_lt
  unfold urlencodeByte at hb
  split at hb
  · next hself => exact .inl (List.mem_singleton.mp hb ▸ hself)
  · split at hb
    · exact .inr (.inl (List.mem_singleton.mp hb))
    · simp only [List.mem_cons, List.not_mem_nil, or_false] at hb
      rcases hb with rfl | rfl | rfl
      · exact .inr (.inr rfl)
      · exact .inl (hdigit _ (by omega))
      · exact .inl (hdigit _ (by omega))

theorem not_mem_urlencode (t : Text) : (38 : Byte) ∉ urlencode t ∧ (61 : Byte) ∉ urlencode t := by
  constructor
  · intro h
    rcases mem_urlencode h with h | h | h
    · exact absurd h (by decide)
    · exact absurd h (by decide)
    · exact absurd h (by decide)
  · intro h
    rcases mem_urlencode h with h | h | h
    · exact absurd h (by decide)
    · exact absurd h (by decide)
    · exact absurd h (by decide)

theorem urldecodePair_urlencodePair (pair : Text × Text) :
    urldecodePair (urlencodePair pair) = some pair := by
  have hname : ∀ b ∈ urlencode pair.1, decide (b ≠ 61) = true := by
    intro b hb
    rw [decide_eq_true_eq]
    rintro rfl
    exact (not_mem_urlencode pair.1).2 hb
  have htake : (urlencodePair pair).takeWhile (· ≠ 61) = urlencode pair.1 := by
    rw [urlencodePair, List.takeWhile_append_of_pos hname]
    simp
  have hdrop : ((urlencodePair pair).dropWhile (· ≠ 61)).drop 1 = urlencode pair.2 := by
    rw [urlencodePair, List.dropWhile_append_of_pos hname]
    simp
  rw [urldecodePair, htake, hdrop, urldecode_urlencode, urldecode_urlencode, fromUtf8_toUtf8,
    fromUtf8_toUtf8]
  rfl

/-- The pairs of a form are read back from it. -/
theorem urldecodePairs_urlencodePairs (pairs : List (Text × Text)) :
    urldecodePairs (urlencodePairs pairs) = some pairs := by
  have hsplit : ((urlencodePairs pairs).splitOn 38).filter (· ≠ []) = pairs.map urlencodePair := by
    by_cases hne : pairs = []
    · rw [hne]
      rfl
    have hnot : ∀ piece ∈ pairs.map urlencodePair, (38 : Byte) ∉ piece := by
      intro piece hpiece hmem
      obtain ⟨pair, -, rfl⟩ := List.mem_map.mp hpiece
      rcases List.mem_append.mp hmem with h | h
      · exact (not_mem_urlencode pair.1).1 h
      · rcases List.mem_cons.mp h with h | h
        · exact absurd h (by decide)
        · exact (not_mem_urlencode pair.2).1 h
    rw [urlencodePairs, List.splitOn_intercalate _ hnot (by simpa using hne), List.filter_eq_self]
    intro piece hpiece
    obtain ⟨pair, -, rfl⟩ := List.mem_map.mp hpiece
    simp [urlencodePair]
  have hall : ∀ l : List (Text × Text), (l.map urlencodePair).mapM urldecodePair = some l := by
    intro l
    induction l with
    | nil => rfl
    | cons pair l ih =>
      rw [List.map_cons, List.mapM_cons, urldecodePair_urlencodePair, ih]
      rfl
  rw [urldecodePairs, hsplit, hall]

theorem mem_intercalate {α : Type} {sep a : α} {pieces : List (List α)}
    (h : a ∈ List.intercalate [sep] pieces) : a = sep ∨ ∃ piece ∈ pieces, a ∈ piece := by
  induction pieces with
  | nil => cases h
  | cons piece rest ih =>
    cases rest with
    | nil => exact .inr ⟨piece, List.mem_cons_self, by simpa using h⟩
    | cons next rest =>
      rw [List.intercalate_cons_cons, List.mem_append, List.mem_append, List.mem_singleton] at h
      rcases h with (h | h) | h
      · exact .inr ⟨piece, List.mem_cons_self, h⟩
      · exact .inl h
      · obtain hsep | ⟨other, hother, ha⟩ := ih h
        · exact .inl hsep
        · exact .inr ⟨other, List.mem_cons_of_mem piece hother, ha⟩

theorem toNat_lt_of_mem_urlencodePairs {pairs : List (Text × Text)} {b : Byte}
    (h : b ∈ urlencodePairs pairs) : b.toNat < 128 := by
  have hself : ∀ {b : Byte}, standsForItself b = true → b.toNat < 128 := by
    intro b hb
    simp only [standsForItself, Bool.or_eq_true, Bool.and_eq_true, decide_eq_true_eq,
      beq_iff_eq] at hb
    rcases hb with (((((h | h) | h) | rfl) | rfl) | rfl) | rfl
    · omega
    · omega
    · omega
    · decide
    · decide
    · decide
    · decide
  have htext : ∀ {t : Text}, b ∈ urlencode t → b.toNat < 128 := by
    intro t ht
    rcases mem_urlencode ht with h | rfl | rfl
    · exact hself h
    · decide
    · decide
  obtain rfl | ⟨piece, hpiece, hb⟩ := mem_intercalate h
  · decide
  · obtain ⟨pair, -, rfl⟩ := List.mem_map.mp hpiece
    rcases List.mem_append.mp hb with hb | hb
    · exact htext hb
    · rcases List.mem_cons.mp hb with rfl | hb
      · decide
      · exact htext hb

/-- An encoded form is text. -/
theorem exists_toUtf8_eq_urlencodePairs (pairs : List (Text × Text)) :
    ∃ t, toUtf8 t = urlencodePairs pairs := by
  have hchar : ∀ n < 128, String.utf8EncodeChar (Char.ofNat n) = [UInt8.ofNat n] := by
    decide +kernel
  have hall : ∀ bs : Bytes, (∀ b ∈ bs, b.toNat < 128) → ∃ t, toUtf8 t = bs := by
    intro bs
    induction bs with
    | nil => exact fun _ ↦ ⟨[], rfl⟩
    | cons b bs ih =>
      intro hbs
      obtain ⟨t, ht⟩ := ih fun b' hb' ↦ hbs b' (List.mem_cons_of_mem b hb')
      refine ⟨Char.ofNat b.toNat :: t, ?_⟩
      rw [toUtf8_cons, ht, hchar _ (hbs b List.mem_cons_self), UInt8.ofNat_toNat,
        List.singleton_append]
  exact hall _ fun b hb ↦ toNat_lt_of_mem_urlencodePairs hb

end CooklangSync.Theory
