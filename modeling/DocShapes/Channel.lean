import DocShapes.Text.Quoted

/-! # Channels

The context that a declaration was written in. All channels but the unscoped one have an access
qualifier of the same name.
-/

namespace DocShapes

inductive Channel where
  | create
  | read
  | write
  | unscoped
  deriving Repr, DecidableEq, Inhabited

namespace Channel

/-- The channels that have an access qualifier, in the order in which the qualifiers are set. -/
def access : List Channel := [.create, .read, .write]

def word : Channel → String
  | .create => "create"
  | .read => "read"
  | .write => "write"
  | .unscoped => "unscoped"

/-- The qualifier that marks a field as seen by the channel. -/
def accessKey? : Channel → Option String
  | .unscoped => none
  | other => some other.word

def lowerAscii (text : String) : String := String.ofList (text.toList.map Char.toLower)

/-- The channel of a word, in any case of its letters; otherwise the word in lower case. -/
def ofWord (text : String) : Except String Channel :=
  match lowerAscii text with
  | "create" => .ok .create
  | "read" => .ok .read
  | "write" => .ok .write
  | "unscoped" => .ok .unscoped
  | "none" => .ok .unscoped
  | other => .error other

/-- The sentence about a word that names no channel. -/
def unknownMessage (word : String) : String :=
  "unknown channel " ++ Text.quoted word ++ " (expected create, read, write or unscoped)"

theorem ofWord_word (channel : Channel) : ofWord channel.word = .ok channel := by
  cases channel <;> rfl

end Channel

end DocShapes
