import DocShapes.Json.Basic
import DocShapes.Number.Decimal
import DocShapes.Text.Hex

/-! # Values of JSON text

`value` reads one value from the front of a text and returns the rest behind it; nothing stands
for a text that does not begin with a value. At most `deepest` containers may be open at once, so
the reader recurses on that number. A repeated key keeps its first place and its last value.
-/

namespace DocShapes.Json

/-- How many containers may be open at once. -/
def deepest : Nat := 127

def isSpace (c : Char) : Bool := c == ' ' || c == '\n' || c == '\t' || c == '\r'

def skipSpace (text : List Char) : List Char := text.dropWhile isSpace

/-! ## Strings -/

/-- The 16-bit unit of four hexadecimal digits. -/
def unit? (a b c d : Char) : Option Nat := do
  let high := 16 * (← Text.hexValue? a) + (← Text.hexValue? b)
  let low := 16 * (← Text.hexValue? c) + (← Text.hexValue? d)
  some (256 * high + low)

def plainEscape? (c : Char) : Option Char :=
  if c = '"' || c = '\\' || c = '/' then some c
  else if c = 'b' then some '\x08'
  else if c = 'f' then some '\x0c'
  else if c = 'n' then some '\n'
  else if c = 'r' then some '\r'
  else if c = 't' then some '\t'
  else none

/-- The character of two units, of which the first is from the upper half of the surrogates. -/
def paired? (high low : Nat) : Option Char :=
  if 0xdc00 ≤ low && low ≤ 0xdfff then
    some (Char.ofNat (0x10000 + (high - 0xd800) * 0x400 + (low - 0xdc00)))
  else none

/-- The characters of a string from behind its opening quote, and the text behind the closing
one. -/
def stringBody : List Char → Option (List Char × List Char)
  | [] => none
  | '"' :: rest => some ([], rest)
  | '\\' :: 'u' :: a :: b :: c :: d :: rest =>
      match unit? a b c d with
      | none => none
      | some high =>
          if 0xd800 ≤ high && high ≤ 0xdbff then
            match rest with
            | '\\' :: 'u' :: e :: f :: g :: h :: rest =>
                match (unit? e f g h).bind (paired? high) with
                | none => none
                | some c => (stringBody rest).map fun (text, rest) => (c :: text, rest)
            | _ => none
          else if 0xdc00 ≤ high && high ≤ 0xdfff then none
          else (stringBody rest).map fun (text, rest) => (Char.ofNat high :: text, rest)
  | '\\' :: c :: rest =>
      match plainEscape? c with
      | none => none
      | some c => (stringBody rest).map fun (text, rest) => (c :: text, rest)
  | c :: rest =>
      if c = '\\' || c.toNat < 32 then none
      else (stringBody rest).map fun (text, rest) => (c :: text, rest)

/-! ## Numbers -/

def digitValue (c : Char) : Nat := c.toNat - 48

/-- Digits behind a point, if there is a point. -/
def fraction? : List Char → Option (List Char × List Char)
  | '.' :: rest =>
      let run := rest.takeWhile Char.isDigit
      if run.isEmpty then none else some (run, rest.drop run.length)
  | rest => some ([], rest)

def naturalOf (run : List Char) : Nat := run.foldl (fun n c => 10 * n + digitValue c) 0

/-- Digits of an exponent behind its mark and sign. -/
def signedExponent? (text : List Char) : Option (Int × List Char) :=
  let (negative, text) :=
    match text with
    | '+' :: rest => (false, rest)
    | '-' :: rest => (true, rest)
    | rest => (false, rest)
  let run := text.takeWhile Char.isDigit
  if run.isEmpty then none
  else
    let size : Int := naturalOf run
    some (if negative then -size else size, text.drop run.length)

/-- The exponent of a number, if it has one. -/
def exponent? : List Char → Option (Option Int × List Char)
  | c :: rest =>
      if c = 'e' || c = 'E' then (signedExponent? rest).map fun (power, rest) => (some power, rest)
      else some (none, c :: rest)
  | [] => some (none, [])

/-- A whole number keeps its value while it fits 64 bits; a negative zero is not whole. -/
def ofWhole (negative : Bool) (run : List Char) : Option Json :=
  let size := naturalOf run
  let fits := if negative then size ≠ 0 && size ≤ Binary64.twoTo 63 else size < Binary64.twoTo 64
  if fits then some (.integer (if negative then -size else size))
  else (Decimal.read negative (run.map digitValue) [] 0).map .number

/-- A number without its sign. -/
def unsigned (negative : Bool) (text : List Char) : Option (Json × List Char) := do
  let whole := text.takeWhile Char.isDigit
  if whole.isEmpty || (whole.head? == some '0' && whole.length ≠ 1) then none
  else
    let (fraction, rest) ← fraction? (text.drop whole.length)
    let (power, rest) ← exponent? rest
    if fraction.isEmpty && power.isNone then
      some (← ofWhole negative whole, rest)
    else
      let x ← Decimal.read negative (whole.map digitValue) (fraction.map digitValue)
        (power.getD 0)
      some (.number x, rest)

/-! ## Values -/

/-- The text behind a word that it must begin with. -/
def word? : List Char → List Char → Option (List Char)
  | [], rest => some rest
  | c :: word, d :: rest => if c = d then word? word rest else none
  | _ :: _, [] => none

/-- The items of an array from the first one on, each read by `item`. -/
def elements (item : List Char → Option (Json × List Char)) :
    Nat → List Char → Option (List Json × List Char)
  | 0, _ => none
  | fuel + 1, text =>
      match item text with
      | none => none
      | some (first, rest) =>
          match skipSpace rest with
          | ',' :: rest =>
              (elements item fuel rest).map fun (others, rest) => (first :: others, rest)
          | ']' :: rest => some ([first], rest)
          | _ => none

/-- The key of a member with the colon behind it. -/
def memberKey (text : List Char) : Option (String × List Char) :=
  match skipSpace text with
  | '"' :: rest =>
      match stringBody rest with
      | none => none
      | some (key, rest) =>
          match skipSpace rest with
          | ':' :: rest => some (String.ofList key, rest)
          | _ => none
  | _ => none

/-- The members of an object from the first one on, added to those read before. -/
def entries (item : List Char → Option (Json × List Char)) :
    Nat → List (String × Json) → List Char → Option (List (String × Json) × List Char)
  | 0, _, _ => none
  | fuel + 1, before, text =>
      match memberKey text with
      | none => none
      | some (key, rest) =>
          match item rest with
          | none => none
          | some (value, rest) =>
              let sofar := OrderedMap.put key value before
              match skipSpace rest with
              | ',' :: rest => entries item fuel sofar rest
              | '\x7d' :: rest => some (sofar, rest)
              | _ => none

/-- One value in a text that begins with it; `depth` more containers may be opened. -/
def value : Nat → List Char → Option (Json × List Char)
  | depth, text =>
      match skipSpace text with
      | [] => none
      | c :: rest =>
          if c = '"' then
            (stringBody rest).map fun (text, rest) => (.string (String.ofList text), rest)
          else if c = '-' then unsigned true rest
          else if c.isDigit then unsigned false (c :: rest)
          else if c = 'n' then (word? "ull".toList rest).map fun rest => (.null, rest)
          else if c = 't' then (word? "rue".toList rest).map fun rest => (.boolean true, rest)
          else if c = 'f' then (word? "alse".toList rest).map fun rest => (.boolean false, rest)
          else
            match depth with
            | 0 => none
            | depth + 1 =>
                if c = '[' then
                  match skipSpace rest with
                  | ']' :: rest => some (.array [], rest)
                  | _ => (elements (value depth) rest.length rest).map fun (items, rest) =>
                      (.array items, rest)
                else if c = '\x7b' then
                  match skipSpace rest with
                  | '\x7d' :: rest => some (.object [], rest)
                  | _ => (entries (value depth) rest.length [] rest).map fun (members, rest) =>
                      (.object members, rest)
                else none

/-- The value of a whole text, with room for `depth` open containers. -/
def readWithin (depth : Nat) (text : String) : Option Json :=
  match value depth text.toList with
  | some (found, rest) => if (skipSpace rest).isEmpty then some found else none
  | none => none

def read (text : String) : Option Json := readWithin deepest text

end DocShapes.Json
