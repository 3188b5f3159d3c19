import DocShapes.Literal.Basic

/-! # Specs

A spec is the tree of a compact type text such as `list(int) | null`. Parentheses leave no trace
in it, a sequence has at least two items unless it is a bare keyword, and names are canonical.
-/

namespace DocShapes

/-- The operators of a sequence; the first one of a sequence decides its kind. -/
inductive Connective where
  | oneof
  | union
  deriving Repr, DecidableEq, Inhabited

namespace Connective

def ofChar? (c : Char) : Option Connective :=
  if c = '|' then some .oneof else if c = '&' then some .union else none

def word : Connective → String
  | .oneof => "oneof"
  | .union => "union"

/-- The text between two items of a sequence. -/
def separator : Connective → String
  | .oneof => " | "
  | .union => " & "

end Connective

inductive Spec where
  | scalar (name : String)
  | constant (value : Literal)
  | named (name : String)
  | list
  | listOf (item : Spec)
  | reference
  | referenceTo (target : Spec)
  | record
  | sequence (connective : Connective) (items : List Spec)
  deriving Repr, BEq, Inhabited

end DocShapes
