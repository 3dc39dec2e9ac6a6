import Hygiene.Number.Shortest

/-!
# Decimal text of doubles

Two layouts of the shortest digits: positional, without an exponent, and compact, which uses one outside a middle range
and always shows that the number is no integer literal. Of two equally near shortest decimals the positional layout
takes the larger and the compact one the even.
-/

namespace Hygiene.Number

/-- The decimal digits of a number. -/
def digitsText (n : Nat) : List Char := Nat.toDigits 10 n

/-- `n` zeros. -/
def zeros (n : Nat) : List Char := List.replicate n '0'

/-- The digits with a point after the first `n` of them; `n` may lie before the digits or after them. -/
def withPoint (digits : List Char) (n : Int) : List Char :=
  if n ≤ 0 then ['0', '.'] ++ zeros (-n).toNat ++ digits
  else if digits.length ≤ n.toNat then digits ++ zeros (n.toNat - digits.length)
  else digits.take n.toNat ++ ['.'] ++ digits.drop n.toNat

/-- How many digits stand before the point. -/
def Decimal.pointPlace (d : Decimal) : Int := (digitsText d.digits).length + d.exponent

/-- A decimal written without an exponent. -/
def Decimal.positional (d : Decimal) : List Char := withPoint (digitsText d.digits) d.pointPlace

/-- A decimal with a point or an exponent: positional while the point stands at most 16 places right of the first digit
and at most 5 left of it, otherwise one digit, the others after a point, and the exponent with its sign. -/
def Decimal.compact (d : Decimal) : List Char :=
  let digits := digitsText d.digits
  let place := d.pointPlace
  if (digits.length : Int) ≤ place ∧ place ≤ 16 then withPoint digits place ++ ['.', '0']
  else if -5 < place ∧ place ≤ 16 then withPoint digits place
  else
    let exponent := place - 1
    let sign := if exponent < 0 then '-' else '+'
    let power := 'e' :: sign :: digitsText exponent.natAbs
    match digits with
    | [] => power
    | [digit] => digit :: power
    | digit :: more => digit :: '.' :: more ++ power

/-- A minus sign for negative numbers, negative zero among them. -/
def signText (x : Float) : List Char := if signBit x then ['-'] else []

/-- The text of a double without an exponent: the shortest digits that read back. -/
def positionalText (x : Float) : String :=
  if x.isNaN then "NaN"
  else if x.isInf then if signBit x then "-inf" else "inf"
  else
    let b := Binary.ofFloat x
    let body := if b.mantissa = 0 then ['0'] else (shortest .up b.mantissa b.exponent).positional
    String.ofList (signText x ++ body)

/-- The text of a finite double in compact layout. -/
def compactText (x : Float) : String :=
  let b := Binary.ofFloat x
  let body := if b.mantissa = 0 then ['0', '.', '0'] else (shortest .toEven b.mantissa b.exponent).compact
  String.ofList (signText x ++ body)

/-- The text of a number in programs: whole numbers below `10 ^ 21` as integers within the signed 64-bit range, other
numbers without an exponent. -/
def numberText (x : Float) : String :=
  if x.isNaN then "NaN"
  else if x.isInf then if signBit x then "-Infinity" else "Infinity"
  else if isWhole x && x.abs < 1e21 then toString (toInt64 x)
  else positionalText x

end Hygiene.Number
