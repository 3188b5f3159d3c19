import DocShapes.File.Access
import DocShapes.Sorted

/-! # Patterns of paths

A pattern stands for the paths that it matches. In a name `?` stands for one character, `*` for any
text, and brackets for one of some characters, or for none of them behind `!`. The component `**`
stands for any number of directories. A component without such marks is looked up and not matched,
so that `.` and `..` keep their meaning; `accepts_map_exactly` says that matching would find the
same names otherwise.
-/

namespace DocShapes

namespace Pattern

/-! ## Faults -/

inductive FaultKind where
  | stars
  | depth
  | range
  deriving Repr, DecidableEq, Inhabited

/-- Why a text is no pattern, and the number of characters in front of the fault. -/
structure Fault where
  position : Nat
  kind : FaultKind
  deriving Repr, DecidableEq, Inhabited

def FaultKind.message : FaultKind → String
  | .stars => "wildcards are either regular `*` or recursive `**`"
  | .depth => "recursive wildcards must form a single path component"
  | .range => "invalid range pattern"

def Fault.message (fault : Fault) : String :=
  "Pattern syntax error near position " ++ toString fault.position ++ ": " ++ fault.kind.message

/-! ## Tokens -/

inductive Token where
  | exactly (c : Char)
  | anyChar
  | anyText
  | anyDepth
  | oneOf (ranges : List (Char × Char))
  | noneOf (ranges : List (Char × Char))
  deriving Repr, DecidableEq, Inhabited

/-- The marks of patterns in a text. -/
def isMark (c : Char) : Bool := c = '*' || c = '?' || c = '['

/-- The text is a pattern and no path. -/
def isPattern (text : String) : Bool := text.toList.any isMark

/-- The characters between brackets as ranges; a hyphen at either end stands for itself. -/
def rangesOf : List Char → List (Char × Char)
  | low :: '-' :: high :: rest => (low, high) :: rangesOf rest
  | c :: rest => (c, c) :: rangesOf rest
  | [] => []

/-- What stands in brackets, and the text behind them; the first character is no closing one. -/
def bracketed : List Char → Option (List Char × List Char)
  | [] => none
  | first :: rest =>
      match rest.dropWhile (· ≠ ']') with
      | [] => none
      | _ :: after => some (first :: rest.takeWhile (· ≠ ']'), after)

/-- The token that an opening bracket begins, and the text behind it. -/
def bracketToken : List Char → Option (Token × List Char)
  | '!' :: rest => (bracketed rest).map fun (inside, after) => (.noneOf (rangesOf inside), after)
  | rest => (bracketed rest).map fun (inside, after) => (.oneOf (rangesOf inside), after)

/-- The tokens of a text at a position of a pattern; `previous` is the character in front of it.
Every token takes a character, so that the length of the text is fuel enough. -/
def tokensFrom : Nat → Nat → Option Char → List Char → Except Fault (List Token)
  | 0, _, _, _ => .ok []
  | _ + 1, _, _, [] => .ok []
  | fuel + 1, position, previous, c :: rest =>
      match c with
      | '?' => do .ok (.anyChar :: (← tokensFrom fuel (position + 1) (some c) rest))
      | '*' =>
          let after := rest.dropWhile (· = '*')
          match (rest.takeWhile (· = '*')).length with
          | 0 => do .ok (.anyText :: (← tokensFrom fuel (position + 1) (some c) after))
          | 1 =>
              if previous.any (· ≠ '/') then .error ⟨position - 1, .depth⟩
              else
                match after with
                | [] => .ok [.anyDepth]
                | '/' :: after => do
                    .ok (.anyDepth :: (← tokensFrom fuel (position + 3) (some '/') after))
                | _ => .error ⟨position + 2, .depth⟩
          | _ => .error ⟨position + 2, .stars⟩
      | '[' =>
          match bracketToken rest with
          | none => .error ⟨position, .range⟩
          | some (token, after) => do
              let next := position + 1 + (rest.length - after.length)
              .ok (token :: (← tokensFrom fuel next (some ']') after))
      | _ => do .ok (.exactly c :: (← tokensFrom fuel (position + 1) (some c) rest))

def tokens (text : List Char) : Except Fault (List Token) := tokensFrom text.length 0 none text

/-! ## Matching a name -/

def inRanges (ranges : List (Char × Char)) (c : Char) : Bool :=
  ranges.any fun (low, high) => decide (low ≤ c) && decide (c ≤ high)

/-- The token stands for the character. -/
def Token.takes : Token → Char → Bool
  | .exactly expected, c => expected = c
  | .anyChar, _ => true
  | .oneOf ranges, c => inRanges ranges c
  | .noneOf ranges, c => !inRanges ranges c
  | .anyText, _ => false
  | .anyDepth, _ => false

def suffixes : List Char → List (List Char)
  | [] => [[]]
  | c :: rest => (c :: rest) :: suffixes rest

/-- The tokens stand for the whole text. -/
def accepts : List Token → List Char → Bool
  | [], text => text.isEmpty
  | .anyText :: rest, text => (suffixes text).any (accepts rest)
  | .anyDepth :: rest, text => (suffixes text).any (accepts rest)
  | token :: rest, text =>
      match text with
      | [] => false
      | c :: text => token.takes c && accepts rest text

/-- A component without marks stands for its own text and no other. -/
theorem accepts_map_exactly (name text : List Char) :
    accepts (name.map .exactly) text = decide (name = text) := by
  induction name generalizing text with
  | nil => cases text <;> simp [accepts]
  | cons c name ih =>
    cases text with
    | nil => simp [accepts]
    | cons other text => simp [accepts, Token.takes, ih]

def Token.char? : Token → Option Char
  | .exactly c => some c
  | _ => none

/-- The text of a component without marks. -/
def literal? (component : List Token) : Option String :=
  (component.mapM Token.char?).map String.ofList

def isDeep (component : List Token) : Bool := component.contains .anyDepth

end Pattern

/-! ## Patterns -/

/-- A pattern by its components. -/
structure Pattern where
  absolute : Bool
  components : List (List Pattern.Token)
  /-- Only directories are matched. -/
  directoryOnly : Bool
  deriving Repr, DecidableEq, Inhabited

namespace Pattern

/-- The components of a text; what is behind a last slash is none. -/
def componentTexts (text : List Char) : List (List Char) :=
  let spelled := Text.split '/' text
  if spelled.getLast? = some [] then spelled.dropLast else spelled

/-- The pattern of a text. Faults of the whole text come before those of a component, in which
positions count from the start of the component. -/
def read (text : String) : Except Fault Pattern := do
  let chars := text.toList
  let _ ← tokens chars
  let absolute := Path.isAbsolute text
  let components ← (componentTexts (if absolute then chars.drop 1 else chars)).mapM tokens
  .ok { absolute, components, directoryOnly := Path.endsInSlash text }

/-! ## Expansion -/

/-- A path that an expansion has come to. -/
structure Reached where
  path : String
  isDirectory : Bool
  deriving Repr, DecidableEq, Inhabited

section Expansion

variable {m : Type → Type} [Monad m]

def reach (files : FileAccess m) (path : String) : m Reached := do
  return ⟨path, ← files.isDirectory path⟩

/-- A path below a place; below the current directory its name is enough. -/
def below (place : Reached) (name : String) : String :=
  if Path.isCurrent place.path then name else Path.join place.path name

/-- What components reach from a place, in steps that each take a component or enter a
directory. -/
def expandFrom (files : FileAccess m) : Nat → List (List Token) → Reached → m (List Reached)
  | 0, _, _ => return []
  | _ + 1, [], place => return [place]
  | fuel + 1, component :: rest, place => do
      match literal? component with
      | some name =>
          let next := below place name
          let there ←
            if name = "." || name = ".." then pure place.isDirectory
            else do pure (← files.kind? next).isSome
          if there then expandFrom files fuel rest (← reach files next) else return []
      | none =>
          if !place.isDirectory then return []
          let names := sortBy (fun left right => left < right) (← files.names place.path)
          let points := [".", ".."].filter fun name =>
            component.head? = some (.exactly '.') && accepts component name.toList
          let viaPoints ← points.reverse.mapM fun name => do
            expandFrom files fuel rest (← reach files (Path.join place.path name))
          let viaNames ← names.mapM fun name => do
            let child ← reach files (below place name)
            if isDeep component then
              let others := rest.dropWhile isDeep
              let inside ←
                if child.isDirectory then expandFrom files fuel (component :: others) child
                else pure []
              match others with
              | [] => return if child.isDirectory then child :: inside else []
              | next :: others =>
                  let here ←
                    if accepts next name.toList then expandFrom files fuel others child
                    else pure []
                  return here ++ inside
            else if accepts component name.toList then expandFrom files fuel rest child
            else return []
          return viaPoints.flatten ++ viaNames.flatten

/-- A bound on the number of directories in a path. -/
def deepest : Nat := 4096

/-- The paths that a pattern matches, in their order. -/
def expand (files : FileAccess m) (pattern : Pattern) : m (List String) := do
  let start ← reach files (if pattern.absolute then "/" else ".")
  let reached ← expandFrom files (deepest + pattern.components.length) pattern.components start
  let kept := reached.filter fun place => !pattern.directoryOnly || place.isDirectory
  return sortBy Path.before (kept.map Reached.path)

end Expansion

end Pattern

end DocShapes
