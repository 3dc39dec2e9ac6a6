import Hygiene.Number.Binary

/-!
# The fewest digits that read back

Among the decimals that round to a given double, those with the fewest significant digits are wanted, and of these the
nearest; ties are up to the layout. Every decimal inside the rounding interval reads back as the double, and the ends of
the interval do exactly when the mantissa is even.
-/

namespace Hygiene.Number

/-- Which of two equally near decimals is taken: the larger one, or the one whose last digit is even. -/
inductive Tie where
  | up
  | toEven
deriving Repr, DecidableEq

/-- The decimal number `digits · 10 ^ exponent`. -/
structure Decimal where
  digits : Nat
  exponent : Int
deriving Repr, DecidableEq

/-- The numbers that round to `value`, all over one denominator: `low ≤ value ≤ high`, with the ends admitted or not. -/
structure Interval where
  low : Nat
  value : Nat
  high : Nat
  denominator : Nat
  closed : Bool

/-- The rounding interval of the positive double `mantissa · 2 ^ exponent`. The gap below a power of two is half as
wide, except at the least exponent. -/
def Interval.ofBinary (mantissa : Nat) (exponent : Int) : Interval :=
  let below := if mantissa = pow2 52 ∧ -1074 < exponent then 1 else 2
  -- in units of `2 ^ (exponent - 2)`
  let unit := pow2 (exponent - 2).toNat
  ⟨(4 * mantissa - below) * unit, 4 * mantissa * unit, (4 * mantissa + 2) * unit, pow2 (2 - exponent).toNat,
    mantissa % 2 == 0⟩

/-- `10 ^ exponent` as a fraction. -/
def powerOfTen (exponent : Int) : Nat × Nat := (Nat.pow 10 exponent.toNat, Nat.pow 10 (-exponent).toNat)

/-- Whether the decimal lies in the interval. -/
def Interval.contains (i : Interval) (d : Decimal) : Bool :=
  let (up, down) := powerOfTen d.exponent
  let n := d.digits * up * i.denominator
  if i.closed then decide (i.low * down ≤ n ∧ n ≤ i.high * down)
  else decide (i.low * down < n ∧ n < i.high * down)

/-- The largest `e ≤ start` with `10 ^ e ≤ numerator / denominator`, sought downwards through `fuel` steps. -/
def leadingExponent (numerator denominator : Nat) : Nat → Int → Int
  | 0, e => e
  | fuel + 1, e =>
    let (up, down) := powerOfTen e
    if up * denominator ≤ numerator * down then e else leadingExponent numerator denominator fuel (e - 1)

/-- Whether the upper of two neighbours comes first, for the value's distance from the lower one in halves of a step. -/
def Tie.prefersUpper (tie : Tie) (lowerDigits twiceRest step : Nat) : Bool :=
  if twiceRest = step then
    match tie with
    | up => true
    | toEven => lowerDigits % 2 == 1
  else decide (step < twiceRest)

/-- The neighbours of the value on the grid of multiples of `10 ^ exponent`, the nearer one first. -/
def Interval.neighbours (i : Interval) (tie : Tie) (exponent : Int) : List Decimal :=
  let (up, down) := powerOfTen exponent
  let floor := i.value * down / (up * i.denominator)
  let rest := i.value * down % (up * i.denominator)
  let lower : Decimal := ⟨floor, exponent⟩
  let upper : Decimal := ⟨floor + 1, exponent⟩
  if rest = 0 then [lower]
  else if tie.prefersUpper floor (2 * rest) (up * i.denominator) then [upper, lower]
  else [lower, upper]

/-- The first neighbour inside the interval on grids that grow finer by one digit at a time. -/
def Interval.search (i : Interval) (tie : Tie) : Nat → Int → Decimal
  | 0, e => ⟨i.value * (powerOfTen e).2 / ((powerOfTen e).1 * i.denominator), e⟩
  | fuel + 1, e =>
    match (i.neighbours tie e).find? i.contains with
    | some d => d
    | none => i.search tie fuel (e - 1)

/-- A decimal without zeros at the end of its digits. -/
def Decimal.strip : Nat → Decimal → Decimal
  | 0, d => d
  | fuel + 1, d => if d.digits ≠ 0 ∧ d.digits % 10 = 0 then strip fuel ⟨d.digits / 10, d.exponent + 1⟩ else d

/-- The shortest decimal that reads back as the positive double `mantissa · 2 ^ exponent`: 17 digits always suffice. -/
def shortest (tie : Tie) (mantissa : Nat) (exponent : Int) : Decimal :=
  let i := Interval.ofBinary mantissa exponent
  let lead := leadingExponent i.value i.denominator 700 310
  (i.search tie 17 lead).strip 20

end Hygiene.Number
