/-!
# Doubles as whole numbers times powers of two

A finite double is `± mantissa · 2 ^ exponent` exactly. What must be exact (integer parts, remainders, machine words) is
computed on that form.
-/

namespace Hygiene.Number

/-- A power of two. -/
def pow2 (n : Nat) : Nat := Nat.pow 2 n

/-- A finite double: its sign, and its size as `mantissa · 2 ^ exponent`. -/
structure Binary where
  negative : Bool
  mantissa : Nat
  exponent : Int
deriving Repr, DecidableEq

/-- The sign bit of a double; a NaN may carry either. -/
def signBit (x : Float) : Bool := decide (x.toBits.toNat / pow2 63 = 1)

/-- The binary form of a finite double. The exponent field 0 marks the numbers below the least normal one. -/
def Binary.ofFloat (x : Float) : Binary :=
  let bits := x.toBits.toNat
  let field : Nat := bits / pow2 52 % pow2 11
  let fraction : Nat := bits % pow2 52
  if field = 0 then ⟨signBit x, fraction, -1074⟩
  else ⟨signBit x, pow2 52 + fraction, (field : Int) - 1075⟩

/-- The double that a binary form denotes, for a mantissa of at most 53 bits whose value needs no rounding. -/
def Binary.toFloat (b : Binary) : Float :=
  let sign := if b.negative then pow2 63 else 0
  if b.mantissa = 0 then Float.ofBits (UInt64.ofNat sign)
  else
    let lead := b.mantissa.log2
    let field := b.exponent + lead + 1023
    if 0 < field then
      -- a normal number: the leading bit is implied
      let fraction := b.mantissa * pow2 (52 - lead) - pow2 52
      Float.ofBits (UInt64.ofNat (sign + field.toNat * pow2 52 + fraction))
    else
      Float.ofBits (UInt64.ofNat (sign + b.mantissa * pow2 (b.exponent + 1074).toNat))

/-- Whether the value is a whole number. -/
def Binary.isWhole (b : Binary) : Bool :=
  if 0 ≤ b.exponent then true else decide (b.mantissa % pow2 (-b.exponent).toNat = 0)

/-- The value rounded toward zero. -/
def Binary.truncate (b : Binary) : Int :=
  let size := if 0 ≤ b.exponent then b.mantissa * pow2 b.exponent.toNat else b.mantissa / pow2 (-b.exponent).toNat
  if b.negative then -(size : Int) else size

/-- Whether a double is finite and a whole number. -/
def isWhole (x : Float) : Bool := x.isFinite && (Binary.ofFloat x).isWhole

/-- A number brought into a closed range by moving it to the nearer end. -/
def clamp (low high n : Int) : Int := max low (min high n)

/-- The nearest signed 64-bit integer to the integer part; NaN gives 0. -/
def toInt64 (x : Float) : Int :=
  if x.isNaN then 0
  else if x.isFinite then clamp (-pow2 63) (pow2 63 - 1) (Binary.ofFloat x).truncate
  else if signBit x then -pow2 63 else pow2 63 - 1

/-- The nearest unsigned 64-bit integer to the integer part; NaN gives 0. -/
def toNat64 (x : Float) : Nat :=
  if x.isNaN then 0
  else if x.isFinite then (clamp 0 (pow2 64 - 1) (Binary.ofFloat x).truncate).toNat
  else if signBit x then 0 else pow2 64 - 1

/-- The low 32 bits of the integer part, brought into the signed 64-bit range, as a signed word; infinities and NaN give
0. -/
def toInt32 (x : Float) : Int32 :=
  if x.isFinite then Int32.ofInt (toInt64 x) else 0

/-- The double of a signed 32-bit word. -/
def ofInt32 (n : Int32) : Float := Float.ofInt n.toInt

/-- The remainder of a division that rounds toward zero; it takes the sign of the dividend. A division by zero or of an
infinity has none. -/
def remainder (x y : Float) : Float :=
  if x.isNaN || y.isNaN || x.isInf || y == 0 then Float.ofBits 0x7ff8000000000000
  else if y.isInf then x
  else
    let a := Binary.ofFloat x
    let b := Binary.ofFloat y
    let e := min a.exponent b.exponent
    let scaled (c : Binary) : Nat := c.mantissa * pow2 (c.exponent - e).toNat
    Binary.toFloat ⟨a.negative, scaled a % scaled b, e⟩

end Hygiene.Number
