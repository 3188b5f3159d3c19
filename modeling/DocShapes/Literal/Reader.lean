import DocShapes.AliasTable
import DocShapes.Json.Reader
import DocShapes.Literal.Basic
import DocShapes.Scan

/-! # Literals of a text

A literal is a run of hexadecimal digits behind `0x`, a strict JSON value, or a lenient value in
which strings may stand between single quotes, words need no quotes and records may have bare
keys. A literal is often followed by more text; every reader here stops behind the literal.
`Literal.constant?` finds nothing where no literal can begin, `Literal.value` also takes words.
-/

namespace DocShapes.Literal

/-- What the readers depend on: the spellings of words, and the text that starts a comment. -/
structure Words where
  aliases : AliasTable
  marker : List Char

/-! ## Strict values -/

/-- The value that a text begins with and the text behind it. Blanks up to the next character
belong to the value; something behind the value that stands on a later line forbids it. -/
def strict? (text : List Char) : Option (Json × List Char) :=
  match Json.value Json.deepest text with
  | none => none
  | some (found, rest) =>
      let tail := Json.skipSpace rest
      if !tail.isEmpty && (text.take (text.length - tail.length)).contains '\n' then none
      else some (found, tail)

/-- A strict value at the cursor, if there is one. -/
def takeStrict : Scan (Option Literal) := do
  let text := (← get).rest
  match strict? text with
  | none => return none
  | some (found, rest) =>
      Scan.forward (text.length - rest.length)
      return some (ofJson found)

def takeHex : Scan Literal := do
  let start ← get
  let digits := (start.rest.drop 2).takeWhile Text.isHexDigit
  match ofHex? digits with
  | some found =>
      Scan.forward (2 + digits.length)
      return found
  | none => Scan.failAt start .unevenHex

/-! ## Quoted text and words -/

/-- The text up to a closing double quote, and the rest behind it. A backslash takes the next
character as it is, but for the three that stand for control characters. -/
def doubleQuoted : List Char → Option (List Char × List Char)
  | [] => none
  | '"' :: rest => some ([], rest)
  | '\\' :: c :: rest =>
      let c := if c = 'n' then '\n' else if c = 't' then '\t' else if c = 'r' then '\r' else c
      (doubleQuoted rest).map fun (body, rest) => (c :: body, rest)
  | c :: rest =>
      if c = '\\' then none else (doubleQuoted rest).map fun (body, rest) => (c :: body, rest)

/-- The text up to a closing single quote, and the rest behind it. Two quotes stand for one. -/
def singleQuoted : List Char → Option (List Char × List Char)
  | [] => none
  | '\'' :: '\'' :: rest => (singleQuoted rest).map fun (body, rest) => ('\'' :: body, rest)
  | '\'' :: rest => some ([], rest)
  | c :: rest => (singleQuoted rest).map fun (body, rest) => (c :: body, rest)

/-- A text in quotes of either kind. -/
def takeQuoted : Scan String := do
  let start ← get
  let found :=
    match start.rest with
    | '"' :: rest => doubleQuoted rest
    | _ :: rest => singleQuoted rest
    | [] => none
  match found with
  | some (body, rest) =>
      Scan.forward (start.rest.length - rest.length)
      return String.ofList body
  | none =>
      Scan.forward start.rest.length
      Scan.failAt start (if start.rest.isEmpty then .missingQuoted else .unterminatedString)

/-- The text before the first occurrence of a marker. -/
def beforeMarker (marker : List Char) : List Char → List Char
  | [] => []
  | c :: rest =>
      if marker.isPrefixOf (c :: rest) then [] else c :: beforeMarker marker rest

/-- The bare word that a text begins with: it ends before a character of `stops` and before a
comment, and has no blanks at its end. -/
def bareWord (stops marker text : List Char) : List Char :=
  let run := text.takeWhile fun c => !stops.contains c
  Text.trimEnd (if marker.isEmpty then run else beforeMarker marker run)

def takeBare (stops marker : List Char) : Scan (List Char) := do
  let word := bareWord stops marker (← get).rest
  Scan.forward word.length
  return word

/-- The characters that end a bare value. -/
def valueStops : List Char := [',', ']', '\x7d', ')', '|', '&', '\n']

/-- The characters that end a bare key. -/
def keyStops : List Char := [':', ',', '\x7d', '\n']

/-- What a bare word means: a constant under one of its spellings, bytes, a number, or text. -/
def ofWord (aliases : AliasTable) (word : List Char) : Literal :=
  match aliases.resolveWord (String.ofList word) with
  | "null" => .null
  | "true" => .boolean true
  | "false" => .boolean false
  | _ =>
      match (Json.word? ['0', 'x'] word).bind ofHex? with
      | some found => found
      | none =>
          match Json.read (String.ofList word) with
          | some (.integer value) => ofJson (.integer value)
          | some (.number value) => .number value
          | _ => .string (String.ofList word)

/-! ## Lenient values -/

/-- Items up to the closing bracket, at most `fuel` of them. -/
def takeItems (element : Scan Literal) : Nat → Scan (List Literal)
  | 0 => return []
  | fuel + 1 => do
      if ← Scan.eat ']' then return []
      let first ← element
      if ← Scan.eat ',' then
        let others ← takeItems element fuel
        return first :: others
      if ← Scan.eat ']' then return [first]
      Scan.fail .listDelimiter

def takeKey (marker : List Char) : Scan String := do
  Scan.skipBlank
  let start ← get
  let key ←
    match start.peek with
    | some '"' => takeQuoted
    | some '\'' => takeQuoted
    | _ => String.ofList <$> takeBare keyStops marker
  if key.isEmpty then Scan.failAt start .missingKey
  return key

/-- Fields up to the closing brace, at most `fuel` of them, added to those before. -/
def takeFields (marker : List Char) (element : Scan Literal) :
    Nat → List (String × Literal) → Scan (List (String × Literal))
  | 0, before => return before
  | fuel + 1, before => do
      if ← Scan.eat '\x7d' then return before
      let key ← takeKey marker
      unless ← Scan.eat ':' do Scan.fail .keyDelimiter
      let value ← element
      let sofar := OrderedMap.put key value before
      if ← Scan.eat ',' then takeFields marker element fuel sofar
      else if ← Scan.eat '\x7d' then return sofar
      else Scan.fail .recordDelimiter

/-- A lenient value with room for `depth` more levels. -/
def lenient (words : Words) : Nat → Scan Literal
  | 0 => Scan.fail .missingLiteral
  | depth + 1 => do
      Scan.skipBlank
      let start ← get
      match start.peek with
      | some '"' => .string <$> takeQuoted
      | some '\'' => .string <$> takeQuoted
      | some '[' =>
          Scan.forward 1
          .list <$> takeItems (lenient words depth) (start.rest.length + 1)
      | some '\x7b' =>
          Scan.forward 1
          .record <$> takeFields words.marker (lenient words depth) (start.rest.length + 1) []
      | _ =>
          let word ← takeBare valueStops words.marker
          if word.isEmpty then Scan.failAt start .missingLiteral
          return ofWord words.aliases word

/-- A lenient value; every level of it takes a character, so the text bounds their number. -/
def takeLenient (words : Words) : Scan Literal := do
  lenient words ((← get).rest.length + 1)

/-! ## Constants and values -/

/-- The literal at the cursor; nothing, and the cursor stays, where none can begin. -/
def constant? (words : Words) : Scan (Option Literal) := do
  let start ← get
  match start.rest with
  | '0' :: 'x' :: _ => some <$> takeHex
  | '0' :: 'X' :: _ => some <$> takeHex
  | first :: _ =>
      if first.isDigit || first = '-' then
        match ← takeStrict with
        | some found => return some found
        | none => Scan.fail .malformedNumber
      else if first = '"' || first = '\'' || first = '\x7b' || first = '[' then
        match ← takeStrict with
        | some found => return some found
        | none => some <$> takeLenient words
      else return none
  | [] => return none

/-- The literal or the word at the cursor. -/
def value (words : Words) : Scan Literal := do
  match ← constant? words with
  | some found => return found
  | none => takeLenient words

end DocShapes.Literal
