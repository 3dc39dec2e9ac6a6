import Hygiene.Number.Binary
import Hygiene.Text.Ranges

/-!
# Reading numbers

Decimal text is rounded to the nearest double, ties to even. It has a sign, digits with at most one point and at least
one digit, and an exponent, or is a word for infinity or NaN in any case.
-/

namespace Hygiene.Number

open Text (hexDigit? hexNumber)

/-- The number that decimal digits stand for. -/
def decimalNumber (digits : List Char) : Nat :=
  digits.foldl (fun n c => n * 10 + (c.toNat - 48)) 0

/-- The double nearest to `digits · 10 ^ exponent`. Exponents far outside the range of doubles are settled first. -/
def nearest (digits : Nat) (exponent : Int) : Float :=
  let size := (Nat.toDigits 10 digits).length + exponent
  if digits = 0 ∨ size < -400 then 0
  else if 400 < size then Float.ofBits 0x7ff0000000000000
  else Float.ofScientific digits (decide (exponent < 0)) exponent.natAbs

/-- Splits a sign off: whether it is a minus, and the rest. -/
def splitSign : List Char → Bool × List Char
  | '-' :: cs => (true, cs)
  | '+' :: cs => (false, cs)
  | cs => (false, cs)

/-- Reads the part after the digits: nothing, or an exponent. -/
def readExponent? : List Char → Option Int
  | [] => some 0
  | c :: cs =>
    if c = 'e' ∨ c = 'E' then
      let (negative, digits) := splitSign cs
      if digits.isEmpty ∨ ¬ digits.all Char.isDigit then none
      else some (if negative then -(decimalNumber digits : Int) else decimalNumber digits)
    else none

/-- Reads an unsigned decimal. -/
def readUnsigned? (cs : List Char) : Option Float :=
  let whole := cs.takeWhile Char.isDigit
  let rest := cs.dropWhile Char.isDigit
  let fraction := match rest with
    | '.' :: more => more.takeWhile Char.isDigit
    | _ => []
  let rest := match rest with
    | '.' :: more => more.dropWhile Char.isDigit
    | _ => rest
  if whole.isEmpty && fraction.isEmpty then none
  else (readExponent? rest).map fun e => nearest (decimalNumber (whole ++ fraction)) (e - fraction.length)

/-- Reads a decimal number, an infinity or a NaN. -/
def readDecimal? (cs : List Char) : Option Float :=
  let (negative, rest) := splitSign cs
  let word := String.ofList (rest.map Char.toLower)
  let size :=
    if word = "inf" ∨ word = "infinity" then some (Float.ofBits 0x7ff0000000000000)
    else if word = "nan" then some (Float.ofBits 0x7ff8000000000000)
    else readUnsigned? rest
  size.map fun x => if negative then -x else x

/-- The value of a number literal: `0x` digits that fit 64 bits, or a decimal. -/
def readLiteral? (cs : List Char) : Option Float :=
  let hex (digits : List Char) : Option Float :=
    if digits.isEmpty ∨ ¬ digits.all (fun c => (hexDigit? c).isSome) ∨ pow2 64 ≤ hexNumber digits then none
    else some (Float.ofNat (hexNumber digits))
  match cs with
  | '0' :: 'x' :: digits => hex digits
  | '0' :: 'X' :: digits => hex digits
  | _ => readDecimal? cs

end Hygiene.Number
