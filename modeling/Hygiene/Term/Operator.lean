/-!
# Operators

The unary and binary operators of expressions, how they are written, and how tightly binary ones bind.
-/

namespace Hygiene

/-- The unary operators. -/
inductive UnaryOp where
  | not
  | negate
  | plus
  | complement
  | typeOf
deriving Repr, DecidableEq

/-- A unary operator as it is written. -/
def UnaryOp.text : UnaryOp → String
  | not => "!"
  | negate => "-"
  | plus => "+"
  | complement => "~"
  | typeOf => "typeof"

/-- The binary operators. -/
inductive BinaryOp where
  | or | and
  | bitOr | bitXor | bitAnd
  | looseEq | looseNe | strictEq | strictNe
  | less | greater | lessEq | greaterEq
  | shiftLeft | shiftRight | shiftRightUnsigned
  | add | sub
  | mul | div | rem
deriving Repr, DecidableEq

namespace BinaryOp

/-- A binary operator as it is written. -/
def text : BinaryOp → String
  | or => "||"
  | and => "&&"
  | bitOr => "|"
  | bitXor => "^"
  | bitAnd => "&"
  | looseEq => "=="
  | looseNe => "!="
  | strictEq => "==="
  | strictNe => "!=="
  | less => "<"
  | greater => ">"
  | lessEq => "<="
  | greaterEq => ">="
  | shiftLeft => "<<"
  | shiftRight => ">>"
  | shiftRightUnsigned => ">>>"
  | add => "+"
  | sub => "-"
  | mul => "*"
  | div => "/"
  | rem => "%"

/-- The binary operators by how tightly they bind, the loosest first; those of one level bind to the left. -/
def levels : List (List BinaryOp) :=
  [[or], [and], [bitOr], [bitXor], [bitAnd], [looseEq, looseNe, strictEq, strictNe], [less, greater, lessEq, greaterEq],
    [shiftLeft, shiftRight, shiftRightUnsigned], [add, sub], [mul, div, rem]]

/-- The operator that a text writes. -/
def ofText? (s : String) : Option BinaryOp := levels.flatten.find? (·.text = s)

end BinaryOp

end Hygiene
