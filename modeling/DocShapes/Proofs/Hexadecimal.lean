import DocShapes.Proofs.Offsets
import Mathlib.Data.List.Induction

/-! # Bytes and hexadecimal digits

What is read from a run of digits is written with the same digits in lower case, and only a filled
run of an even number of digits is read (`hexadecimal_exact`). A decoder that cuts the text into
slices of two bytes reads the same: it looks at every byte before it takes a slice, so that none of
its slices cuts a character (`slicedHex?_eq`).
-/

namespace DocShapes

namespace Text

variable {c : Char} {n : Nat} {text digits : List Char} {bytes : List UInt8}

/-! ## Digits -/

/-- All digits, the letters among them in both cases. -/
def hexAlphabet : List Char := "0123456789abcdefABCDEF".toList

theorem isHexDigit_iff_mem : isHexDigit c = true ↔ c ∈ hexAlphabet := by
  constructor
  · intro digit
    exact List.contains_iff_mem.mp (forall_isHexDigit hexAlphabet.contains (by decide) digit)
  · intro member
    have each : hexAlphabet.all isHexDigit = true := by decide
    exact List.all_eq_true.mp each c member

theorem toNat_lt_of_isHexDigit (digit : isHexDigit c = true) : c.toNat < 128 :=
  of_decide_eq_true (forall_isHexDigit (fun c => c.toNat < 128) (by decide) digit)

/-- The number of a digit is written as the digit in lower case. -/
theorem hexDigit_of_hexValue? (read : hexValue? c = some n) :
    n < 16 ∧ hexDigit n = c.toLower := by
  have digit : isHexDigit c = true := by
    rw [isHexDigit, read]
    rfl
  have table := forall_isHexDigit
    (fun c => (hexValue? c).all fun n => n < 16 && hexDigit n = c.toLower) (by decide) digit
  simpa [read] using table

/-! ## Runs of digits -/

theorem exists_of_bytesOfHex?_cons_cons {high low : Char}
    (read : bytesOfHex? (high :: low :: digits) = some bytes) :
    ∃ first second rest, hexValue? high = some first ∧ hexValue? low = some second ∧
      bytesOfHex? digits = some rest ∧ bytes = UInt8.ofNat (16 * first + second) :: rest := by
  rw [bytesOfHex?] at read
  split at read
  · rename_i first second rest upper lower others
    exact ⟨first, second, rest, upper, lower, others, (Option.some.inj read).symm⟩
  · cases read

/-- The bytes of digits are written as the same digits in lower case. -/
theorem hexOfBytes_of_bytesOfHex? (read : bytesOfHex? digits = some bytes) :
    hexOfBytes bytes = digits.map Char.toLower := by
  induction digits using List.twoStepInduction generalizing bytes with
  | nil =>
    cases read
    rfl
  | singleton => cases read
  | cons_cons high low digits ih =>
    obtain ⟨first, second, rest, upper, lower, others, rfl⟩ :=
      exists_of_bytesOfHex?_cons_cons read
    obtain ⟨firstSmall, firstWritten⟩ := hexDigit_of_hexValue? upper
    obtain ⟨secondSmall, secondWritten⟩ := hexDigit_of_hexValue? lower
    have number : (UInt8.ofNat (16 * first + second)).toNat = 16 * first + second := by
      rw [UInt8.toNat_ofNat']
      omega
    have firstHalf : (16 * first + second) / 16 = first := by omega
    have secondHalf : (16 * first + second) % 16 = second := by omega
    rw [hexOfBytes, number, firstHalf, secondHalf, firstWritten, secondWritten, ih others]
    rfl

theorem isSome_bytesOfHex?_cons_cons (high low : Char) (digits : List Char) :
    (bytesOfHex? (high :: low :: digits)).isSome =
      (isHexDigit high && isHexDigit low && (bytesOfHex? digits).isSome) := by
  rw [bytesOfHex?, isHexDigit, isHexDigit]
  cases hexValue? high <;> cases hexValue? low <;> cases bytesOfHex? digits <;> rfl

/-- The bytes of a run exist exactly if it has an even number of characters, all of them digits. -/
theorem isSome_bytesOfHex?_iff : (bytesOfHex? digits).isSome = true ↔
    digits.length % 2 = 0 ∧ ∀ c ∈ digits, isHexDigit c = true := by
  induction digits using List.twoStepInduction with
  | nil => simp [bytesOfHex?]
  | singleton => simp [bytesOfHex?]
  | cons_cons high low digits ih =>
    have even : (high :: low :: digits).length % 2 = digits.length % 2 := by
      simp only [List.length_cons]
      omega
    rw [isSome_bytesOfHex?_cons_cons, even, List.forall_mem_cons, List.forall_mem_cons,
      Bool.and_eq_true, Bool.and_eq_true, ih]
    tauto

/-! ## Slices of two bytes -/

/-- The bytes of the UTF-8 form. -/
def utf8 (text : List Char) : List UInt8 := text.flatMap String.utf8EncodeChar

/-- A byte is taken for the character of its number. -/
def isHexByte (byte : UInt8) : Bool := isHexDigit (Char.ofNat byte.toNat)

/-- The number of two digits, where a plus sign may stand in place of the first. -/
def byteOfDigits? : List Char → Option UInt8
  | [high, low] => do
      let first ← if high = '+' then some 0 else hexValue? high
      let second ← hexValue? low
      return UInt8.ofNat (16 * first + second)
  | _ => none

/-- A character of several bytes has one that is no digit. -/
theorem exists_mem_utf8EncodeChar (large : 128 ≤ c.toNat) :
    ∃ byte ∈ String.utf8EncodeChar c, isHexByte byte = false := by
  have outside : isHexByte (UInt8.ofNat (c.toNat % 64 + 128)) = false := by
    have table : ∀ k : Fin 64, isHexByte (UInt8.ofNat (k.val + 128)) = false := by decide
    exact table ⟨c.toNat % 64, Nat.mod_lt _ (by decide)⟩
  refine ⟨_, ?_, outside⟩
  have several : ¬ c.val.toNat ≤ 127 := Nat.not_le.mpr large
  rw [String.utf8EncodeChar, if_neg several]
  -- In each of the three longer forms it is the last byte.
  split
  · simp
  split
  · simp
  · simp

theorem utf8EncodeChar_of_small (small : c.toNat < 128) :
    String.utf8EncodeChar c = [UInt8.ofNat c.toNat] :=
  if_pos (Nat.le_of_lt_succ small)

/-- The bytes of a character are digits exactly if the character is one. -/
theorem all_isHexByte (c : Char) :
    (String.utf8EncodeChar c).all isHexByte = isHexDigit c := by
  by_cases small : c.toNat < 128
  · have number : (UInt8.ofNat c.toNat).toNat = c.toNat := by
      rw [UInt8.toNat_ofNat']
      omega
    rw [utf8EncodeChar_of_small small, List.all_cons, List.all_nil, Bool.and_true, isHexByte,
      number, Char.ofNat_toNat]
  · obtain ⟨byte, member, outside⟩ := exists_mem_utf8EncodeChar (Nat.not_lt.mp small)
    have other : isHexDigit c = false :=
      Bool.eq_false_iff.mpr fun digit => small (toNat_lt_of_isHexDigit digit)
    rw [other, List.all_eq_false]
    exact ⟨byte, member, by simp [outside]⟩

theorem all_utf8_iff : (utf8 text).all isHexByte = true ↔ ∀ c ∈ text, isHexDigit c = true := by
  rw [utf8, List.all_flatMap]
  simp only [all_isHexByte, List.all_eq_true]

/-- A digit has one byte. -/
theorem width_of_digits (each : ∀ c ∈ digits, isHexDigit c = true) :
    width digits = digits.length := by
  induction digits with
  | nil => rfl
  | cons c rest ih =>
    obtain ⟨digit, others⟩ := List.forall_mem_cons.mp each
    have size : c.utf8Size = 1 := by
      rw [← String.length_utf8EncodeChar, utf8EncodeChar_of_small (toNat_lt_of_isHexDigit digit)]
      rfl
    rw [width_cons, size, ih others, List.length_cons, Nat.add_comm]

theorem byteOfDigits?_pair {high low : Char} (upper : isHexDigit high = true) :
    byteOfDigits? [high, low] = do
      let first ← hexValue? high
      let second ← hexValue? low
      return UInt8.ofNat (16 * first + second) := by
  -- The sign is no digit, so that a check of the digits keeps it out.
  have unsigned : high ≠ '+' := by
    rintro rfl
    cases upper
  rw [byteOfDigits?, if_neg unsigned]

/-- Slices of two bytes from some place on exist where only digits follow, and hold two digits
each. -/
theorem exists_slices (front : List Char) (even : digits.length % 2 = 0)
    (each : ∀ c ∈ digits, isHexDigit c = true) :
    ∃ pieces, (List.range' (width front) (digits.length / 2) 2).mapM
        (fun start => slice? (front ++ digits) start (start + 2)) = some pieces ∧
      pieces.mapM byteOfDigits? = bytesOfHex? digits := by
  -- The pair that is cut off joins the front, where the places of the other slices begin.
  induction digits using List.twoStepInduction generalizing front with
  | nil => exact ⟨[], rfl, rfl⟩
  | singleton => cases even
  | cons_cons high low digits ih =>
    obtain ⟨upper, others⟩ := List.forall_mem_cons.mp each
    obtain ⟨lower, others⟩ := List.forall_mem_cons.mp others
    have two : width [high, low] = 2 :=
      width_of_digits (List.forall_mem_cons.mpr ⟨upper, by simpa using lower⟩)
    have rest : digits.length % 2 = 0 := by
      simp only [List.length_cons] at even
      omega
    obtain ⟨pieces, sliced, read⟩ := ih (front ++ [high, low]) rest others
    rw [width_append, two, List.append_assoc, List.cons_append, List.singleton_append] at sliced
    have first : slice? (front ++ (high :: low :: digits)) (width front) (width front + 2) =
        some [high, low] := by
      rw [← two]
      exact slice?_append front [high, low] digits
    have half : (high :: low :: digits).length / 2 = digits.length / 2 + 1 := by
      simp only [List.length_cons]
      omega
    refine ⟨[high, low] :: pieces, ?_, ?_⟩
    · rw [half, List.range'_succ, List.mapM_cons, first, Option.bind_eq_bind, Option.bind_some,
        sliced]
      rfl
    · rw [List.mapM_cons, byteOfDigits?_pair upper, read, bytesOfHex?]
      cases hexValue? high <;> cases hexValue? low <;> cases bytesOfHex? digits <;> rfl

end Text

namespace Literal

open Text (bytesOfHex? hexOfBytes isHexDigit width slice?)

variable {value : Literal} {digits : List Char}

/-- The literal of some bytes. -/
def ofBytes : List UInt8 → Literal
  | [only] => .byte only
  | several => .bytes several

theorem chars_ofBytes (bytes : List UInt8) :
    (ofBytes bytes).chars = '0' :: 'x' :: hexOfBytes bytes := by
  unfold ofBytes
  split
  · rfl
  · rfl

theorem text_of_chars {written : List Char} (shown : value.chars = '0' :: 'x' :: written) :
    value.text = "0x" ++ String.ofList written := by
  have joined : String.ofList (['0', 'x'] ++ written) = "0x" ++ String.ofList written :=
    String.ofList_append
  rw [text, shown]
  exact joined

theorem ofHex?_eq_some_iff : ofHex? digits = some value ↔
    digits ≠ [] ∧ ∃ bytes, bytesOfHex? digits = some bytes ∧ ofBytes bytes = value := by
  cases read : bytesOfHex? digits with
  | none => simp [ofHex?, read]
  | some bytes =>
    have written := Text.hexOfBytes_of_bytesOfHex? read
    match bytes with
    | [] =>
      have empty : digits = [] := List.map_eq_nil_iff.mp written.symm
      subst empty
      simp [ofHex?, read]
    | first :: rest =>
      have filled : digits ≠ [] := by
        rintro rfl
        cases read
      cases rest <;> simp [ofHex?, read, filled, ofBytes]

theorem ofHex?_hexOfBytes_of_ne_nil {bytes : List UInt8} (filled : bytes ≠ []) :
    ofHex? (hexOfBytes bytes) = some (ofBytes bytes) := by
  have digits : hexOfBytes bytes ≠ [] := by
    cases bytes with
    | nil => exact absurd rfl filled
    | cons => exact List.cons_ne_nil _ _
  exact ofHex?_eq_some_iff.mpr ⟨digits, bytes, Text.bytesOfHex?_hexOfBytes bytes, rfl⟩

/-- Exactly the filled runs of an even number of digits are read. -/
theorem isSome_ofHex?_iff : (ofHex? digits).isSome = true ↔
    digits ≠ [] ∧ digits.length % 2 = 0 ∧ ∀ c ∈ digits, isHexDigit c = true := by
  rw [← Text.isSome_bytesOfHex?_iff, Option.isSome_iff_exists, Option.isSome_iff_exists]
  simp only [ofHex?_eq_some_iff, exists_and_left]
  simp

/-- The literal of a run of digits, read in slices of two bytes. Nothing is found where a slice does
not exist. -/
def slicedHex? (text : List Char) : Option (Option Literal) :=
  if text = [] ∨ width text % 2 ≠ 0 then some none
  else if (Text.utf8 text).all Text.isHexByte then do
    let pieces ← (List.range' 0 (width text / 2) 2).mapM fun start =>
      slice? text start (start + 2)
    return (pieces.mapM Text.byteOfDigits?).map ofBytes
  else some none

theorem slicedHex?_of_digits (filled : digits ≠ []) (even : digits.length % 2 = 0)
    (each : ∀ c ∈ digits, isHexDigit c = true) :
    slicedHex? digits = some ((bytesOfHex? digits).map ofBytes) := by
  have size := Text.width_of_digits each
  obtain ⟨pieces, sliced, read⟩ := Text.exists_slices [] even each
  have complete : ¬ (digits = [] ∨ digits.length % 2 ≠ 0) := by simp [filled, even]
  rw [Text.width_nil, List.nil_append] at sliced
  rw [slicedHex?, size, if_neg complete, if_pos (Text.all_utf8_iff.mpr each), sliced, ← read]
  rfl

/-- Slices of two bytes are never missing, and they give what the digits give one by one. -/
theorem slicedHex?_eq (text : List Char) : slicedHex? text = some (ofHex? text) := by
  cases found : ofHex? text with
  | none =>
    rw [slicedHex?]
    split
    · rfl
    split
    · rename_i complete all
      have each := Text.all_utf8_iff.mp all
      rw [Text.width_of_digits each, not_or, not_not] at complete
      have read := isSome_ofHex?_iff.mpr ⟨complete.1, complete.2, each⟩
      rw [found] at read
      cases read
    · rfl
  | some value =>
    obtain ⟨filled, even, each⟩ := isSome_ofHex?_iff.mp (Option.isSome_of_eq_some found)
    obtain ⟨_, bytes, read, rfl⟩ := ofHex?_eq_some_iff.mp found
    rw [slicedHex?_of_digits filled even each, read]
    rfl

/-- A character of several bytes is refused before a slice cuts it. -/
example : slicedHex? ['0', 'é', '1'] = some none ∧ slice? ['0', 'é', '1'] 0 2 = none :=
  ⟨rfl, rfl⟩

/-- Filled lists of bytes and filled runs of an even number of digits stand for the same literals.
The digits that are written for bytes are read as the literal of these bytes; no other text is read;
and what is read is written with the same digits in lower case. It makes no difference whether the
characters are read one by one or in slices of two bytes. -/
theorem hexadecimal_exact :
    (∀ bytes : List UInt8, bytes ≠ [] → ∀ value, value = ofBytes bytes ∨ value = .bytes bytes →
      ∃ digits : String, value.text = "0x" ++ digits ∧
        ofHex? digits.toList = some (ofBytes bytes)) ∧
    ∀ digits : String,
      ((ofHex? digits.toList).isSome = true ↔
        digits ≠ "" ∧ digits.length % 2 = 0 ∧ ∀ c ∈ digits.toList, c ∈ Text.hexAlphabet) ∧
      (∀ value, ofHex? digits.toList = some value → value.text = "0x" ++ digits.toLower) ∧
      slicedHex? digits.toList = some (ofHex? digits.toList) := by
  refine ⟨fun bytes filled value shown => ?_, fun digits => ⟨?_, fun value read => ?_, ?_⟩⟩
  · have written : value.chars = '0' :: 'x' :: hexOfBytes bytes := by
      rcases shown with rfl | rfl
      · exact chars_ofBytes bytes
      · rfl
    refine ⟨String.ofList (hexOfBytes bytes), text_of_chars written, ?_⟩
    rw [String.toList_ofList]
    exact ofHex?_hexOfBytes_of_ne_nil filled
  · simp only [isSome_ofHex?_iff, Text.isHexDigit_iff_mem, String.length_toList, ne_eq,
      String.toList_eq_nil_iff]
  · obtain ⟨_, bytes, found, rfl⟩ := ofHex?_eq_some_iff.mp read
    rw [text_of_chars (chars_ofBytes bytes), Text.hexOfBytes_of_bytesOfHex? found,
      ← String.toList_map, String.ofList_toList]
    rfl
  · exact slicedHex?_eq _

theorem hexadecimal_exact_mixedCase :
    ([0x0a, 0xbc] : List UInt8) ≠ [] ∧
      (∃ digits : String, (Literal.bytes [0x0a, 0xbc]).text = "0x" ++ digits ∧
        ofHex? digits.toList = some (.bytes [0x0a, 0xbc])) ∧
      ofHex? "0ABc".toList = some (.bytes [0x0a, 0xbc]) ∧
      (Literal.bytes [0x0a, 0xbc]).text = "0x" ++ "0ABc".toLower := by
  have filled : ([0x0a, 0xbc] : List UInt8) ≠ [] := by decide
  have read : ofHex? "0ABc".toList = some (.bytes [0x0a, 0xbc]) := by rfl
  exact ⟨filled, hexadecimal_exact.1 _ filled _ (.inr rfl), read,
    (hexadecimal_exact.2 "0ABc").2.1 _ read⟩

end Literal

end DocShapes
