import DocShapes.Base
import DocShapes.Text.Quoted
import DocShapes.Text.Width

/-! # Causes of failure

Each failure names its cause; `Error.message` is the one place where causes become sentences.
`Error.located` adds the place in a text: a column counted in characters and the text within ten
bytes on either side, cut at character boundaries.
-/

namespace DocShapes

/-! ## Causes -/

/-- Why a spec, a literal or a declaration line is not well formed. -/
inductive SpecFault where
  | malformedNumber
  | unevenHex
  | missingLiteral
  | listDelimiter
  | missingKey
  | keyDelimiter
  | recordDelimiter
  | missingQuoted
  | unterminatedString
  | trailingText
  | missingType
  | closingParenthesis
  | qualifierDelimiter
  | missingQualifier
  | repeatedQualifier (key : String)
  | declarationWithoutType (name : String)
  | severalDeclarations
  | remark (text : String)
  deriving Repr, DecidableEq, Inhabited

/-- Why a spelling cannot stand for a name. -/
inductive AliasFault where
  | emptyName
  | ownName
  | otherTarget (existing target : String)
  | hasSpellings
  | targetIsSpelling (target existing : String)
  | registeredName
  | isSpelling
  deriving Repr, DecidableEq, Inhabited

/-- Why a type cannot take what it is given. -/
inductive StructureFault where
  | unknownCompound (name : String)
  | unnamedField (owner : String)
  | repeatedField (owner field : String)
  | noFields (owner : String)
  | childPresent (owner : String)
  | noSingleChild (owner : String)
  | noAlternatives (owner : String)
  | bareField (owner : String)
  | tooManyChildren (owner : String) (count : Nat)
  | noChildren (base : Base) (owner : String)
  | notNamed (base : Base) (name : String)
  | recordArgument (column : Nat)
  | bodyWithoutNames (owner : String)
  deriving Repr, DecidableEq, Inhabited

/-- Why settings cannot be used. -/
inductive ConfigFault where
  | malformed
  | blankMarker
  deriving Repr, DecidableEq, Inhabited

inductive Error where
  | invalidSpec (fault : SpecFault) (column : Nat) (context : String)
  | spellingConflict (spelling : String) (fault : AliasFault)
  | baseMismatch (name : String) (bases : List Base)
  | fieldConflict (name field left right : String)
  | unresolved (name : String)
  | structure (fault : StructureFault)
  | duplicate (name : String)
  | config (fault : ConfigFault) (path : String)
  deriving Repr, DecidableEq, Inhabited

/-! ## Sentences -/

open Text (quoted)

def SpecFault.message : SpecFault → String
  | .malformedNumber => "malformed numeric literal"
  | .unevenHex => "hex literal needs an even number of digits"
  | .missingLiteral => "expected a literal value"
  | .listDelimiter => "expected ',' or ']' in list literal"
  | .missingKey => "expected a key in record literal"
  | .keyDelimiter => "expected ':' after record key"
  | .recordDelimiter => "expected ',' or '\x7d' in record literal"
  | .missingQuoted => "expected a quoted string"
  | .unterminatedString => "unterminated string literal"
  | .trailingText => "unexpected trailing text"
  | .missingType => "expected a type"
  | .closingParenthesis => "expected ')'"
  | .qualifierDelimiter => "expected ',' before qualifier"
  | .missingQualifier => "expected a qualifier name"
  | .repeatedQualifier key => "qualifier " ++ quoted key ++ " given twice"
  | .declarationWithoutType name => "missing type for " ++ quoted name
  | .severalDeclarations => "expected at most one declaration"
  | .remark text => text

def AliasFault.message : AliasFault → String
  | .emptyName => "alias and target must be non-empty"
  | .ownName => "a name cannot alias itself"
  | .otherTarget existing target =>
      "already an alias of " ++ quoted existing ++ ", cannot retarget to " ++ quoted target
  | .hasSpellings => "is a canonical name with aliases of its own"
  | .targetIsSpelling target existing =>
      "target " ++ quoted target ++ " is itself an alias of " ++ quoted existing
  | .registeredName => "is already a registered type name"
  | .isSpelling => "type name is already an alias spelling"

def StructureFault.message : StructureFault → String
  | .unknownCompound name => "unknown compound kind " ++ quoted name
  | .unnamedField owner => "record " ++ quoted owner ++ " has a field without a name"
  | .repeatedField owner field =>
      "record " ++ quoted owner ++ " declares field " ++ quoted field ++ " twice"
  | .noFields owner => quoted owner ++ " cannot hold fields"
  | .childPresent owner => quoted owner ++ " takes at most one child"
  | .noSingleChild owner => quoted owner ++ " cannot hold a single child"
  | .noAlternatives owner => quoted owner ++ " cannot hold alternatives"
  | .bareField owner => "record " ++ quoted owner ++ " children must be named fields"
  | .tooManyChildren owner count =>
      quoted owner ++ " takes at most one child, got " ++ toString count
  | .noChildren base owner => base.word ++ " " ++ quoted owner ++ " cannot hold children"
  | .notNamed base name =>
      "only record and extension types can be registered, got " ++ base.word ++ " " ++ quoted name
  | .recordArgument column =>
      "record(...) at column " ++ toString column ++
        " cannot take a bare type; declare named fields instead"
  | .bodyWithoutNames owner => "body of " ++ quoted owner ++ " may only declare named fields"

def ConfigFault.message : ConfigFault → String
  | .malformed => "not of the expected form"
  | .blankMarker => "must not be empty"

def Error.message : Error → String
  | .invalidSpec fault column context =>
      "invalid type specification at column " ++ toString column ++ ": " ++ fault.message ++
        " (near " ++ quoted context ++ ")"
  | .spellingConflict spelling fault =>
      "alias conflict for " ++ quoted spelling ++ ": " ++ fault.message
  | .baseMismatch name bases =>
      "conflicting base kinds for type " ++ quoted name ++ ": " ++
        ", ".intercalate (bases.map Base.word)
  | .fieldConflict name field left right =>
      "conflicting declarations of field " ++ quoted field ++ " in type " ++ quoted name ++ ": " ++
        left ++ " != " ++ right
  | .unresolved name => "unresolved type reference " ++ quoted name
  | .structure fault => "structure violation: " ++ fault.message
  | .duplicate name => "type " ++ quoted name ++ " is already registered"
  | .config fault path => "invalid configuration at " ++ path ++ ": " ++ fault.message

/-! ## Places -/

/-- A fault at a byte position of a text; a position behind the end stands for the end. -/
def Error.located (fault : SpecFault) (text : List Char) (position : Nat) : Error :=
  let before := Text.within position text
  let place := Text.width before
  let start := Text.within (place - 10) text
  let finish := Text.within (place + 10) text
  .invalidSpec fault (before.length + 1) (String.ofList (finish.drop start.length))

end DocShapes
