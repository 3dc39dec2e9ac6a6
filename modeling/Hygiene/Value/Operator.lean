import Hygiene.Eval.Error
import Hygiene.Value.Equality

/-!
# Operators on values

Arithmetic is that of doubles, bit operations that of 32-bit words, and texts are compared by their characters.
-/

namespace Hygiene.Value

open Number (toInt32 ofInt32 remainder)

/-- The order of two values: of texts by their characters, of other values as numbers; NaN has none. -/
def compare? (a b : Value) : Option Ordering :=
  match a, b with
  | str s, str t => some (if s < t then .lt else if s = t then .eq else .gt)
  | _, _ =>
    let x := a.toNumber
    let y := b.toNumber
    if x < y then some .lt else if y < x then some .gt else if x == y then some .eq else none

/-- The distance of a shift: the low five bits. -/
def shiftCount (x : Float) : UInt32 := (toInt32 x).toUInt32 &&& 31

/-- The sum of two values, or their texts joined when one of them is a text. -/
def plus (a b : Value) : Value :=
  match a, b with
  | str s, _ => str (s ++ b.text)
  | _, str t => str (a.text ++ t)
  | _, _ => number (a.toNumber + b.toNumber)

/-- The result of a binary operator that evaluates both operands; the logical operators have none. -/
def binary? (operator : BinaryOp) (a b : Value) : Option Value :=
  let x := a.toNumber
  let y := b.toNumber
  let word (n : Int32) : Option Value := some (number (ofInt32 n))
  match operator with
  | .or | .and => none
  | .add => some (plus a b)
  | .sub => some (number (x - y))
  | .mul => some (number (x * y))
  | .div => some (number (x / y))
  | .rem => some (number (remainder x y))
  | .strictEq => some (bool (a.strictEq b))
  | .strictNe => some (bool (!a.strictEq b))
  | .looseEq => some (bool (a.looseEq b))
  | .looseNe => some (bool (!a.looseEq b))
  | .less => some (bool (compare? a b == some .lt))
  | .greater => some (bool (compare? a b == some .gt))
  | .lessEq => some (bool (compare? a b == some .lt || compare? a b == some .eq))
  | .greaterEq => some (bool (compare? a b == some .gt || compare? a b == some .eq))
  | .bitAnd => word (toInt32 x &&& toInt32 y)
  | .bitOr => word (toInt32 x ||| toInt32 y)
  | .bitXor => word (toInt32 x ^^^ toInt32 y)
  | .shiftLeft => word (toInt32 x <<< (shiftCount y).toInt32)
  | .shiftRight => word (toInt32 x >>> (shiftCount y).toInt32)
  | .shiftRightUnsigned => some (number (((toInt32 x).toUInt32 >>> shiftCount y).toFloat))

/-- The result of a binary operator on two values. -/
def binary (operator : BinaryOp) (a b : Value) : Except Fault Value :=
  match binary? operator a b with
  | some v => .ok v
  | none => .error (.unsupported (.binaryOperator operator.text))

/-- The result of an operator given by its text. -/
def binaryText (operator : String) (a b : Value) : Except Fault Value :=
  match BinaryOp.ofText? operator with
  | some op => binary op a b
  | none => .error (.unsupported (.binaryOperator operator))

/-- The result of a unary operator on a value. -/
def unary (operator : UnaryOp) (v : Value) : Value :=
  match operator with
  | .not => bool !v.isTruthy
  | .negate => number (-v.toNumber)
  | .plus => number v.toNumber
  | .complement => number (ofInt32 (~~~ toInt32 v.toNumber))
  | .typeOf => str v.typeOf

end Hygiene.Value
