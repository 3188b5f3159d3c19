/-! # Base kinds of types
-/

namespace DocShapes

/-- The coarse kind of a type: two declarations of one name must agree in it. -/
inductive Base where
  | scalar
  | compound
  | record
  | constant
  | extension
  | unknown
  deriving Repr, DecidableEq, Inhabited

/-- The word for a base kind in messages and dumps. -/
def Base.word : Base → String
  | .scalar => "scalar"
  | .compound => "compound"
  | .record => "record"
  | .constant => "constant"
  | .extension => "extension"
  | .unknown => "unknown"

end DocShapes
