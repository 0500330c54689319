import JavaRecords.Text.Basic

set_option autoImplicit false

namespace JavaRecords

/-- An assignment, a compound assignment, an increment or a decrement. -/
inductive AssignOp where
  | assign
  | add
  | sub
  | mul
  | div
  | rem
  | and
  | or
  | xor
  | shl
  | shr
  | ushr
  | increment
  | decrement
  deriving DecidableEq, Repr

namespace AssignOp

/-- The operator as it is written. -/
def spelling : AssignOp → String
  | .assign => "="
  | .add => "+="
  | .sub => "-="
  | .mul => "*="
  | .div => "/="
  | .rem => "%="
  | .and => "&="
  | .or => "|="
  | .xor => "^="
  | .shl => "<<="
  | .shr => ">>="
  | .ushr => ">>>="
  | .increment => "++"
  | .decrement => "--"

/-- How many characters of the operator stand before its last one. -/
def lead (op : AssignOp) : Nat := op.spelling.length - 1

/-- The compound operator of an arithmetic or logical character. -/
def ofPunct? : Char → Option AssignOp
  | '+' => some .add
  | '-' => some .sub
  | '*' => some .mul
  | '/' => some .div
  | '%' => some .rem
  | '&' => some .and
  | '|' => some .or
  | '^' => some .xor
  | _ => none

end AssignOp

end JavaRecords
