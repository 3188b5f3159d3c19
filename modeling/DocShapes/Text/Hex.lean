/-! # Hexadecimal digits

Digits are written in lower case and read in either case. A byte has two digits, the high half
first.
-/

namespace DocShapes.Text

/-- The lower-case digit of a number below sixteen. -/
def hexDigit (n : Nat) : Char :=
  if n < 10 then Char.ofNat (48 + n) else Char.ofNat (87 + n)

def hexValue? (c : Char) : Option Nat :=
  if '0' ≤ c && c ≤ '9' then some (c.toNat - 48)
  else if 'a' ≤ c && c ≤ 'f' then some (c.toNat - 87)
  else if 'A' ≤ c && c ≤ 'F' then some (c.toNat - 55)
  else none

def isHexDigit (c : Char) : Bool := (hexValue? c).isSome

/-- Digits of a number, without leading zeros; at most `count` of them. -/
def hexDigits : Nat → Nat → List Char
  | 0, _ => []
  | count + 1, n =>
      if n < 16 then [hexDigit n] else hexDigits count (n / 16) ++ [hexDigit (n % 16)]

/-- The two digits of each byte. -/
def hexOfBytes : List UInt8 → List Char
  | [] => []
  | byte :: rest => hexDigit (byte.toNat / 16) :: hexDigit (byte.toNat % 16) :: hexOfBytes rest

/-- The bytes of a run of digits, of which there must be an even number. -/
def bytesOfHex? : List Char → Option (List UInt8)
  | [] => some []
  | [_] => none
  | high :: low :: rest =>
      match hexValue? high, hexValue? low, bytesOfHex? rest with
      | some high, some low, some bytes => some (UInt8.ofNat (16 * high + low) :: bytes)
      | _, _, _ => none

/-- A test that each digit passes. -/
theorem forall_isHexDigit (test : Char → Bool)
    (table : ∀ k : Fin 128, isHexDigit (Char.ofNat k) = true → test (Char.ofNat k) = true) {c : Char}
    (digit : isHexDigit c = true) : test c = true := by
  have small : c ≤ 'f' := by
    simp only [isHexDigit, hexValue?, Bool.and_eq_true, decide_eq_true_eq] at digit
    split at digit
    · rename_i range
      exact Char.le_trans range.2 (by decide)
    split at digit
    · rename_i range
      exact range.2
    split at digit
    · rename_i range
      exact Char.le_trans range.2 (by decide)
    · cases digit
  have bound : c.toNat < 128 := Nat.lt_of_le_of_lt small (by decide)
  have here := table ⟨c.toNat, bound⟩
  rw [Char.ofNat_toNat] at here
  exact here digit

theorem hexValue?_hexDigit (n : Nat) (small : n < 16) : hexValue? (hexDigit n) = some n := by
  have table : ∀ k : Fin 16, hexValue? (hexDigit k) = some k.val := by decide
  exact table ⟨n, small⟩

theorem isHexDigit_hexDigit (n : Nat) (small : n < 16) : isHexDigit (hexDigit n) = true := by
  rw [isHexDigit, hexValue?_hexDigit n small]
  rfl

theorem isHexDigit_of_mem_hexOfBytes {bytes : List UInt8} :
    ∀ c ∈ hexOfBytes bytes, isHexDigit c = true := by
  induction bytes with
  | nil => simp [hexOfBytes]
  | cons byte rest ih =>
    have size := byte.toNat_lt
    refine List.forall_mem_cons.mpr ⟨isHexDigit_hexDigit _ (by omega), ?_⟩
    exact List.forall_mem_cons.mpr ⟨isHexDigit_hexDigit _ (by omega), ih⟩

@[simp] theorem bytesOfHex?_hexOfBytes (bytes : List UInt8) :
    bytesOfHex? (hexOfBytes bytes) = some bytes := by
  induction bytes with
  | nil => rfl
  | cons byte rest ih =>
    have size := byte.toNat_lt
    rw [hexOfBytes, bytesOfHex?, hexValue?_hexDigit _ (by omega), hexValue?_hexDigit _ (by omega),
      ih]
    simp [Nat.div_add_mod]

end DocShapes.Text
