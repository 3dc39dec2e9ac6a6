import Hygiene.Proofs.Number.Double

/-!
# The numbers that doubles denote

A finite double denotes a rational number exactly. Its integer part is that of the number.
-/

namespace Hygiene.Number

/-! ### Exact values -/

/-- The number that a binary form denotes. -/
def Binary.value (b : Binary) : ℚ := (if b.negative then -1 else 1) * (b.mantissa * 2 ^ b.exponent)

/-- The number that a finite double denotes. -/
def exactValue (x : Float) : ℚ := (Binary.ofFloat x).value

variable {x : Float}

theorem isNaN_of_isFinite (hx : x.isFinite = true) : x.isNaN = false := by
  rw [Float.isNaN, Float.Model.isNaN, unpack_of_isFinite hx, Binary.unpacked]
  split <;> rfl

theorem ofFloat_neg (hx : x.isFinite = true) :
    (-x).isFinite = true ∧ Binary.ofFloat (-x) = { Binary.ofFloat x with negative := !(Binary.ofFloat x).negative } := by
  have hvalid : ({ Binary.ofFloat x with negative := !(Binary.ofFloat x).negative } : Binary).Valid := ofFloat_valid hx
  have hpack : -x = .ofModel (.pack ({ Binary.ofFloat x with negative := !(Binary.ofFloat x).negative } : Binary).unpacked) := by
    change Float.ofModel (.pack x.toModel.unpack.neg) = _
    rw [unpack_of_isFinite hx, Binary.unpacked, Binary.unpacked]
    cases (Binary.ofFloat x).negative <;> split <;> rfl
  rw [hpack]
  exact ofFloat_pack hvalid

/-! ### Integer parts -/

/-- A number rounded toward zero. -/
def integerPart (v : ℚ) : Int := if 0 ≤ v then ⌊v⌋ else ⌈v⌉

theorem floor_binary (m : Nat) (e : Int) : ⌊(m : ℚ) * 2 ^ e⌋ =
    ((if 0 ≤ e then m * pow2 e.toNat else m / pow2 (-e).toNat : Nat) : Int) := by
  have hpow : ∀ i, pow2 i = 2 ^ i := fun _ => rfl
  rw [hpow, hpow, zpow_eq_div]
  split
  · next he =>
    rw [show (-e).toNat = 0 by omega, pow_zero, div_one, ← Int.floor_natCast (R := ℚ)]
    push_cast
    rfl
  · next he =>
    rw [show e.toNat = 0 by omega, pow_zero, mul_one_div, ← Nat.floor_div_eq_div (K := ℚ), Int.natCast_floor_eq_floor (by positivity)]
    push_cast
    rfl

/-- Truncating gives the integer part. -/
theorem truncate_eq (b : Binary) : b.truncate = integerPart b.value := by
  have hnonneg : (0 : ℚ) ≤ b.mantissa * 2 ^ b.exponent := by positivity
  rw [Binary.truncate, Binary.value, integerPart, ← floor_binary]
  cases b.negative with
  | false => simp [hnonneg]
  | true =>
    simp only [if_true, neg_one_mul]
    split
    · next h =>
      have hzero : (b.mantissa : ℚ) * 2 ^ b.exponent = 0 := by linarith
      simp [hzero]
    · rw [Int.ceil_neg]

end Hygiene.Number
