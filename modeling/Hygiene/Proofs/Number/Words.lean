import Hygiene.Proofs.Number.Exact
import Hygiene.Value.Operator

/-!
# Bitwise operators

The integer part of a number is first brought into the range of signed 64-bit integers. So beyond it all positive
numbers have the word of `-1` and all negative ones the word of `0`.
-/

namespace Hygiene

namespace Number

variable {x : Float} {n : Nat}

/-- The double is the given integer; zero has no sign. -/
structure IsInteger (x : Float) (i : Int) : Prop where
  finite : x.isFinite = true
  value : exactValue x = i
  sign : (Binary.ofFloat x).negative = decide (i < 0)

/-- The number of a word: the low bits of the integer part, which is first brought into the signed 64-bit range. -/
def word (x : Float) : Nat := (max (-2 ^ 63) (min (2 ^ 63 - 1) (integerPart (exactValue x))) % 2 ^ 32).toNat

/-- The result of a bitwise operator on two words. Shifts are by at most 31 places. The results are signed, but for the
shift that fills up with zeros. -/
def wordResult? (operator : BinaryOp) (a b : Nat) : Option Int :=
  match operator with
  | .bitAnd => some (Int.bmod (a &&& b : Nat) (2 ^ 32))
  | .bitOr => some (Int.bmod (a ||| b : Nat) (2 ^ 32))
  | .bitXor => some (Int.bmod (a ^^^ b : Nat) (2 ^ 32))
  | .shiftLeft => some (Int.bmod (a <<< (b % 32) : Nat) (2 ^ 32))
  | .shiftRight => some (Int.bmod a (2 ^ 32) >>> (b % 32))
  | .shiftRightUnsigned => some (a >>> (b % 32) : Nat)
  | _ => none

/-! ### Integers as doubles -/

theorem isInteger_of_pack {m : Nat} {e : Int} (hc : Canonical m e) (hmost : e ≤ 971) (hvalue : (m : ℚ) * 2 ^ e = n)
    (hx : x = .ofModel (.pack (.finite .positive m e hc.pos))) : IsInteger x n := by
  rw [← unpacked_pos hc.pos] at hx
  obtain ⟨hfinite, hform⟩ := ofFloat_pack (hc.valid hmost)
  rw [← hx] at hfinite hform
  refine ⟨hfinite, ?_, by simp [hform]⟩
  rw [exactValue, hform, Binary.value, if_neg Bool.false_ne_true, one_mul, hvalue]
  rfl

theorem isInteger_ofNat (h : n < 2 ^ 53) : IsInteger (Float.ofNat n) n := by
  rcases Nat.eq_zero_or_pos n with rfl | hpos
  · exact ⟨by decide +kernel, by decide +kernel, by decide +kernel⟩
  · obtain ⟨m, e, hc, -, he, hvalue⟩ := exists_canonical hpos h
    refine isInteger_of_pack hc (by omega) hvalue (ofScientific_eq (k := 0) hpos hc (by omega) ?_)
    rw [zpow_zero, mul_one, ← hvalue]
    exact roundsTo_self

theorem isInteger_toFloat (u : UInt32) : IsInteger u.toFloat u.toNat := by
  have hlt : u.toNat < 2 ^ 53 := Nat.lt_trans u.toNat_lt (by decide)
  rcases Nat.eq_zero_or_pos u.toNat with hzero | hpos
  · obtain rfl : u = 0 := UInt32.toNat_inj.1 hzero
    exact ⟨by decide +kernel, by decide +kernel, by decide +kernel⟩
  · obtain ⟨m, e, hc, -, he, hvalue⟩ := exists_canonical hpos hlt
    refine isInteger_of_pack hc (by omega) hvalue (congrArg (Float.ofModel <| .pack ·) (ofNat_eq hpos hc ?_))
    rw [← hvalue]
    exact roundsTo_self

theorem IsInteger.neg (h : IsInteger x n) (hpos : 0 < n) : IsInteger (-x) (-n) := by
  obtain ⟨hfinite, hform⟩ := ofFloat_neg h.finite
  have hsign : (Binary.ofFloat x).negative = false := by simp [h.sign]
  have hvalue := h.value
  rw [hsign] at hform
  rw [exactValue, Binary.value, hsign] at hvalue
  refine ⟨hfinite, ?_, by simp [hform, hpos]⟩
  rw [exactValue, hform, Binary.value, Int.cast_neg, ← hvalue]
  simp

theorem isInteger_ofInt {i : Int} (h : i.natAbs < 2 ^ 53) : IsInteger (Float.ofInt i) i := by
  cases i with
  | ofNat n => exact isInteger_ofNat h
  | negSucc n => exact (isInteger_ofNat h).neg (Nat.succ_pos n)

theorem isInteger_ofInt32 (w : Int32) : IsInteger (ofInt32 w) w.toInt := by
  refine isInteger_ofInt ?_
  have := w.toInt_lt
  have := w.le_toInt
  omega

/-! ### Integers that are not negative -/

section Natural

open Float.Model (Format UnpackedFloat)

variable {y : Float} {a b : Nat}

theorem IsInteger.nonneg (h : IsInteger x n) : (Binary.ofFloat x).negative = false := by simp [h.sign]

theorem IsInteger.unpack (h : IsInteger x n) : x.toModel.unpack =
    if hpos : 0 < (Binary.ofFloat x).mantissa then .finite .positive (Binary.ofFloat x).mantissa (Binary.ofFloat x).exponent hpos
    else .zero .positive := by
  rw [unpack_of_isFinite h.finite, Binary.unpacked, h.nonneg]
  rfl

theorem IsInteger.mantissa_mul (h : IsInteger x n) :
    ((Binary.ofFloat x).mantissa : ℚ) * 2 ^ (Binary.ofFloat x).exponent = n := by
  have hvalue := h.value
  rw [exactValue, Binary.value, h.nonneg] at hvalue
  simpa using hvalue

theorem IsInteger.of_pack (hy : IsInteger y n) (hx : x = .ofModel (.pack y.toModel.unpack)) : IsInteger x n := by
  obtain ⟨hfinite, hform⟩ := ofFloat_pack (ofFloat_valid hy.finite)
  rw [← unpack_of_isFinite hy.finite, ← hx] at hfinite hform
  exact ⟨hfinite, by rw [exactValue, hform, ← exactValue, hy.value], by rw [hform, hy.sign]⟩

/-- A sum below `2 ^ 53` is exact. -/
theorem IsInteger.add (hx : IsInteger x a) (hy : IsInteger y b) (h : a + b < 2 ^ 53) : IsInteger (x + y) (a + b : Nat) := by
  have hsum : x + y = .ofModel (.pack (UnpackedFloat.add Format.binary64 x.toModel.unpack y.toModel.unpack)) := rfl
  have hxvalue := hx.mantissa_mul
  have hyvalue := hy.mantissa_mul
  by_cases hxpos : 0 < (Binary.ofFloat x).mantissa
  · by_cases hypos : 0 < (Binary.ofFloat y).mantissa
    · have ha : (0 : ℚ) < a := by rw [← hxvalue]; positivity
      obtain ⟨m, e, hc, -, he, hvalue⟩ := exists_canonical (Nat.add_pos_left (by exact_mod_cast ha) b) h
      refine isInteger_of_pack hc (by omega) hvalue ?_
      rw [hsum, hx.unpack, hy.unpack, dif_pos hxpos, dif_pos hypos, add_eq hxpos hypos hc]
      rw [hxvalue, hyvalue, ← Nat.cast_add, ← hvalue]
      exact roundsTo_self
    · obtain rfl : b = 0 := by
        rw [Nat.eq_zero_of_not_pos hypos] at hyvalue
        simpa using hyvalue.symm
      refine hx.of_pack (hsum.trans ?_)
      rw [hx.unpack, hy.unpack, dif_pos hxpos, dif_neg hypos]
      rfl
  · obtain rfl : a = 0 := by
      rw [Nat.eq_zero_of_not_pos hxpos] at hxvalue
      simpa using hxvalue.symm
    rw [Nat.zero_add]
    refine hy.of_pack (hsum.trans ?_)
    rw [hx.unpack, hy.unpack, dif_neg hxpos]
    split <;> rfl

theorem IsInteger.unique {i j : Int} (h : IsInteger x i) (h' : IsInteger x j) : i = j := by
  exact_mod_cast h.value.symm.trans h'.value

theorem IsInteger.not_lt_zero (h : IsInteger x n) : ¬ x < 0 := by
  intro hlt
  have hlt : x.toModel.unpack.lt (0 : Float).toModel.unpack = true := of_decide_eq_true hlt
  have hzero : (0 : Float).toModel.unpack = .zero .positive :=
    (isInteger_ofNat (n := 0) (by decide)).unpack.trans (dif_neg (by decide +kernel))
  rw [h.unpack, hzero] at hlt
  split at hlt <;> cases hlt

theorem IsInteger.toNat64 (h : IsInteger x n) (hn : n < 2 ^ 64) : toNat64 x = n := by
  have hpow : pow2 64 = 2 ^ 64 := rfl
  have htruncate : (Binary.ofFloat x).truncate = n := by
    rw [truncate_eq, ← exactValue, h.value, integerPart, if_pos (by positivity)]
    exact Int.floor_intCast _
  rw [Number.toNat64, isNaN_of_isFinite h.finite, h.finite, htruncate, clamp, hpow]
  simp
  omega

end Natural

/-! ### Words -/

theorem toInt32_eq (hx : x.isFinite = true) : (toInt32 x).toBitVec = BitVec.ofNat 32 (word x) := by
  have hclamp : toInt64 x = max (-2 ^ 63) (min (2 ^ 63 - 1) (integerPart (exactValue x))) := by
    rw [toInt64, isNaN_of_isFinite hx, hx, truncate_eq]
    rfl
  rw [toInt32, if_pos hx, hclamp, Int32.toBitVec_ofInt, word]
  apply BitVec.eq_of_toNat_eq
  rw [BitVec.toNat_ofInt, BitVec.toNat_ofNat]
  omega

theorem toNat_toInt32 (hx : x.isFinite = true) : (toInt32 x).toBitVec.toNat = word x := by
  rw [toInt32_eq hx, BitVec.toNat_ofNat, word]
  omega

/-- The distance of a shift, as a word, is not changed by taking it modulo the number of places. -/
theorem shiftCount_eq (hx : x.isFinite = true) :
    (Value.shiftCount x).toNat = word x % 32 ∧ (Value.shiftCount x).toInt32.toBitVec.smod 32 = BitVec.ofNat 32 (word x % 32) := by
  have hcount : (Value.shiftCount x).toBitVec = BitVec.ofNat 32 (word x % 32) := by
    change (toInt32 x).toBitVec &&& 31 = _
    apply BitVec.eq_of_toNat_eq
    rw [BitVec.toNat_and, toNat_toInt32 hx, BitVec.toNat_ofNat]
    change word x &&& 2 ^ 5 - 1 = _
    rw [Nat.and_two_pow_sub_one_eq_mod]
    omega
  have hlt : word x % 32 < 32 := Nat.mod_lt _ (by decide)
  constructor
  · rw [← UInt32.toNat_toBitVec, hcount, BitVec.toNat_ofNat]
    omega
  · change (Value.shiftCount x).toBitVec.smod 32 = _
    rw [hcount]
    generalize word x % 32 = places at hlt
    interval_cases places <;> decide

theorem toInt_eq (w : Int32) : w.toInt = Int.bmod w.toBitVec.toNat (2 ^ 32) := BitVec.toInt_eq_toNat_bmod _

end Number

namespace Value

open Number

variable {a b : Value}

/-- A bitwise operator gives the double of its result on the words of its operands. -/
theorem bitwise_words (ha : a.toNumber.isFinite = true) (hb : b.toNumber.isFinite = true) :
    (∀ operator i, wordResult? operator (word a.toNumber) (word b.toNumber) = some i →
      ∃ r, binary operator a b = .ok (.number r) ∧ IsInteger r i) ∧
    ∃ r, unary .complement a = .number r ∧ IsInteger r (-1 - Int.bmod (word a.toNumber) (2 ^ 32)) := by
  have hword := toNat_toInt32 ha
  have hword' := toNat_toInt32 hb
  obtain ⟨hcount, hplaces⟩ := shiftCount_eq hb
  have hfits : word b.toNumber % 32 % 2 ^ 32 = word b.toNumber % 32 := Nat.mod_eq_of_lt (by omega)
  constructor
  · intro operator i hi
    cases operator <;> simp only [wordResult?, reduceCtorEq, Option.some.injEq] at hi <;> subst hi
    case bitAnd =>
      have h := isInteger_ofInt32 (toInt32 a.toNumber &&& toInt32 b.toNumber)
      rw [toInt_eq, Int32.toBitVec_and, BitVec.toNat_and, hword, hword'] at h
      exact ⟨_, rfl, h⟩
    case bitOr =>
      have h := isInteger_ofInt32 (toInt32 a.toNumber ||| toInt32 b.toNumber)
      rw [toInt_eq, Int32.toBitVec_or, BitVec.toNat_or, hword, hword'] at h
      exact ⟨_, rfl, h⟩
    case bitXor =>
      have h := isInteger_ofInt32 (toInt32 a.toNumber ^^^ toInt32 b.toNumber)
      rw [toInt_eq, Int32.toBitVec_xor, BitVec.toNat_xor, hword, hword'] at h
      exact ⟨_, rfl, h⟩
    case shiftLeft =>
      have h := isInteger_ofInt32 (toInt32 a.toNumber <<< (shiftCount b.toNumber).toInt32)
      rw [toInt_eq, Int32.toBitVec_shiftLeft, hplaces, BitVec.shiftLeft_eq', BitVec.toNat_shiftLeft, hword,
        BitVec.toNat_ofNat, hfits, Int.natCast_emod, Int.emod_bmod] at h
      exact ⟨_, rfl, h⟩
    case shiftRight =>
      have h := isInteger_ofInt32 (toInt32 a.toNumber >>> (shiftCount b.toNumber).toInt32)
      rw [← Int32.toInt_toBitVec, Int32.toBitVec_shiftRight, hplaces, BitVec.toInt_sshiftRight', BitVec.toNat_ofNat, hfits,
        BitVec.toInt_eq_toNat_bmod, hword] at h
      exact ⟨_, rfl, h⟩
    case shiftRightUnsigned =>
      have h := isInteger_toFloat ((toInt32 a.toNumber).toUInt32 >>> shiftCount b.toNumber)
      rw [UInt32.toNat_shiftRight, hcount, Nat.mod_mod, ← UInt32.toNat_toBitVec, Int32.toBitVec_toUInt32, hword] at h
      exact ⟨((toInt32 a.toNumber).toUInt32 >>> shiftCount b.toNumber).toFloat, rfl, h⟩
  · have h := isInteger_ofInt32 (~~~ toInt32 a.toNumber)
    have hlow := (toInt32 a.toNumber).le_toInt
    have hhigh := (toInt32 a.toNumber).toInt_lt
    rw [Int32.toInt_not, Int.bmod_eq_of_le (by omega) (by omega), toInt_eq, hword] at h
    refine ⟨_, rfl, ?_⟩
    rwa [show ∀ j : Int, -1 - j = -j - 1 by omega]

/-- The word of `-5.5` is shifted by one place, and its sign is kept. -/
theorem bitwise_words_shift : (number (-5.5)).toNumber.isFinite = true ∧ (number 33).toNumber.isFinite = true ∧
    ∃ r, binary .shiftRight (number (-5.5)) (number 33) = .ok (.number r) ∧ IsInteger r (-3) :=
  ⟨by decide +kernel, by decide +kernel,
    (bitwise_words (by decide +kernel) (by decide +kernel)).1 .shiftRight (-3) (by decide +kernel)⟩

/-- The integer `2 ^ 63` has no low bits, but its word is that of `-1`. -/
theorem bitOr_beyond : binary .bitOr (number 9223372036854775808) (number 0) = .ok (.number (-1)) ∧
    integerPart (exactValue 9223372036854775808) % 2 ^ 32 = 0 := by
  have hresult : ofInt32 (toInt32 9223372036854775808 ||| toInt32 0) = -1 := by decide +kernel
  exact ⟨congrArg (fun r => Except.ok (Value.number r)) hresult, by decide +kernel⟩

end Value

end Hygiene
