import Hygiene.Number.Binary
import Hygiene.Proofs.Number.Rounding

/-!
# Finite doubles and their binary form

A finite double and its binary form determine each other.
-/

namespace Hygiene.Number

open Float.Model (Format UnpackedFloat totalExponent)
open Float.Model.UnpackedFloat

variable {b : Binary}

/-- The sign of a number. -/
def signOf (negative : Bool) : Sign := if negative then .negative else .positive

namespace Binary

/-- The form of a finite double. -/
def Valid (b : Binary) : Prop :=
  b.mantissa = 0 ∧ b.exponent = -1074 ∨ Canonical b.mantissa b.exponent ∧ b.exponent ≤ 971

/-- A number with its sign, mantissa and exponent. -/
def unpacked (b : Binary) : UnpackedFloat :=
  if h : 0 < b.mantissa then .finite (signOf b.negative) b.mantissa b.exponent h else .zero (signOf b.negative)

end Binary

/-! ### The fields of a double -/

/-- The field of the exponent. -/
def exponentField (x : Float) : Nat := x.toBits.toNat / 2 ^ 52 % 2 ^ 11

/-- The field of the mantissa. -/
def fractionField (x : Float) : Nat := x.toBits.toNat % 2 ^ 52

variable {x y : Float}

theorem ofFloat_eq (x : Float) : Binary.ofFloat x = if exponentField x = 0 then ⟨signBit x, fractionField x, -1074⟩
    else ⟨signBit x, 2 ^ 52 + fractionField x, exponentField x - 1075⟩ := rfl

theorem toNat_unpackMantissa (x : Float) :
    (@unpackMantissa .binary64 x.toModel.toBits.toBitVec).toNat = fractionField x := by
  simp [unpackMantissa, BitVec.extractLsb, fractionField, Float.toBits]

theorem toNat_unpackExponent (x : Float) :
    (@unpackExponent .binary64 x.toModel.toBits.toBitVec).toNat = exponentField x := by
  simp [unpackExponent, BitVec.extractLsb, Nat.shiftRight_eq_div_pow, exponentField, Float.toBits]

theorem sign_unpackSign (x : Float) :
    Sign.ofBitVec (@unpackSign .binary64 x.toModel.toBits.toBitVec) = signOf (signBit x) := by
  have hlt : x.toBits.toNat < 2 ^ 64 := x.toBits.toNat_lt
  have htoNat : (@unpackSign .binary64 x.toModel.toBits.toBitVec).toNat = x.toBits.toNat / 2 ^ 63 := by
    simp [unpackSign, BitVec.extractLsb, Nat.shiftRight_eq_div_pow, Float.toBits] at hlt ⊢
    omega
  have hsign : signBit x = decide (x.toBits.toNat / 2 ^ 63 = 1) := rfl
  simp only [Sign.ofBitVec, signOf, hsign, ← BitVec.toNat_inj, htoNat]
  rcases (by omega : x.toBits.toNat / 2 ^ 63 = 0 ∨ x.toBits.toNat / 2 ^ 63 = 1) with h | h <;> rw [h] <;> rfl

theorem unpack_toModel (x : Float) : x.toModel.unpack =
    if exponentField x = 2047 then if fractionField x = 0 then .infinity (signOf (signBit x)) else .notANumber
    else (Binary.ofFloat x).unpacked := by
  have hlt : fractionField x < 2 ^ 52 := Nat.mod_lt _ (by decide)
  have hfull : (-1#11).toNat = 2047 := rfl
  have hnormal : (1#1 ++ @unpackMantissa .binary64 x.toModel.toBits.toBitVec).toNat = 2 ^ 52 + fractionField x := by
    rw [BitVec.toNat_append, toNat_unpackMantissa, ← Nat.shiftLeft_add_eq_or_of_lt hlt]
    rfl
  have hbias : ((Format.binary64.exponentBias : Nat) : Int) + (Format.binary64.mantissaBitsWithoutImplicit : Nat) = 1075 := rfl
  simp only [Float.Model.unpack, unpack, ← BitVec.toNat_inj, toNat_unpackExponent, toNat_unpackMantissa, sign_unpackSign,
    hfull, hbias, hnormal, ofFloat_eq, BitVec.toNat_ofNat, Nat.zero_mod]
  by_cases hexponent : exponentField x = 2047
  · simp [hexponent]
  · by_cases hzero : exponentField x = 0
    · by_cases hfraction : fractionField x = 0 <;>
        simp [hzero, hfraction, Binary.unpacked, Nat.pos_iff_ne_zero]
    · simp [hexponent, hzero, Binary.unpacked]

/-- A double is finite unless the field of its exponent is full. -/
theorem isFinite_iff : x.isFinite = true ↔ exponentField x ≠ 2047 := by
  rw [Float.isFinite, Float.Model.isFinite, unpack_toModel, Binary.unpacked]
  split_ifs with hfull <;> simp [isFinite, hfull]

theorem unpack_of_isFinite (hx : x.isFinite = true) : x.toModel.unpack = (Binary.ofFloat x).unpacked := by
  rw [unpack_toModel, if_neg (isFinite_iff.1 hx)]

/-! ### Binary forms -/

theorem ofFloat_valid (hx : x.isFinite = true) : (Binary.ofFloat x).Valid := by
  have hfield := isFinite_iff.1 hx
  have hlt : exponentField x < 2 ^ 11 := Nat.mod_lt _ (by decide)
  have hlt' : fractionField x < 2 ^ 52 := Nat.mod_lt _ (by decide)
  rw [ofFloat_eq]
  split <;> dsimp only [Binary.Valid]
  · by_cases hzero : fractionField x = 0
    · exact Or.inl ⟨hzero, rfl⟩
    · exact Or.inr ⟨⟨by omega, by omega, by omega, Or.inr rfl⟩, by omega⟩
  · exact Or.inr ⟨⟨by omega, by omega, by omega, Or.inl (by omega)⟩, by omega⟩

/-- The fields of a binary form that is packed. The leading bit of a normal mantissa is implied. -/
theorem pack_unpacked (h : b.Valid) : pack Format.binary64 b.unpacked = packComponents Format.binary64 (signOf b.negative)
    (if b.mantissa < 2 ^ 52 then 0 else .ofNat 11 (b.exponent + 1075).toNat) (.ofNat 52 b.mantissa) := by
  rw [Binary.unpacked]
  rcases h with ⟨hzero, -⟩ | ⟨⟨hpos, hlt, hleast, hnormal⟩, hmost⟩
  · rw [dif_neg (by omega), hzero]
    rfl
  · have hbias : b.exponent + Format.binary64.exponentBias + Format.binary64.mantissaBitsWithoutImplicit =
        b.exponent + 1075 := by
      rw [Int.add_assoc]
      rfl
    have hfits : ¬ 2 ^ Format.binary64.exponentBits ≤ (b.exponent + 1075).toNat + 1 := by
      change ¬ 2048 ≤ _
      omega
    have hlog : b.mantissa.log2 + 1 = Format.binary64.mantissaBits ↔ ¬ b.mantissa < 2 ^ 52 := by
      have hlt := (Nat.log2_lt hpos.ne').2 hlt
      rw [← Nat.log2_lt hpos.ne']
      change _ = 53 ↔ _
      omega
    rw [dif_pos hpos, pack, hbias, if_neg hfits]
    by_cases hsmall : b.mantissa < 2 ^ 52
    · rw [if_neg (hlog.not_left.2 hsmall), if_pos hsmall]
      rfl
    · rw [if_pos (hlog.2 hsmall), if_neg hsmall]

/-- Packing a binary form gives a finite double of this form. -/
theorem ofFloat_pack (h : b.Valid) :
    (Float.ofModel (.pack b.unpacked)).isFinite = true ∧ Binary.ofFloat (.ofModel (.pack b.unpacked)) = b := by
  generalize hx : Float.ofModel (.pack b.unpacked) = x
  have hbits : x.toModel.toBits.toBitVec = _ := (congrArg (·.toModel.toBits.toBitVec) hx).symm.trans (pack_unpacked h)
  have hfraction := toNat_unpackMantissa x
  have hexponent := toNat_unpackExponent x
  have hsign := sign_unpackSign x
  rw [hbits, unpackMantissa_packComponents, BitVec.toNat_ofNat] at hfraction
  rw [hbits, unpackExponent_packComponents] at hexponent
  rw [hbits, unpackSign_packComponents, Sign.ofBitVec_toBitVec] at hsign
  obtain ⟨negative, m, e⟩ := b
  have hsign : signBit x = negative := by
    revert hsign
    cases signBit x <;> cases negative <;> simp [signOf]
  rw [isFinite_iff, ofFloat_eq, hsign]
  dsimp only [Binary.Valid] at h hfraction hexponent
  by_cases hsmall : m < 2 ^ 52
  · obtain rfl : e = -1074 := by
      rcases h with h | ⟨⟨_, _, _, _⟩, _⟩ <;> omega
    rw [if_pos hsmall] at hexponent
    rw [← hexponent, ← hfraction, Nat.mod_eq_of_lt hsmall]
    exact ⟨by decide, rfl⟩
  · obtain ⟨⟨-, hlt, hleast, -⟩, hmost⟩ := h.resolve_left (by omega)
    rw [if_neg hsmall, BitVec.toNat_ofNat, Nat.mod_eq_of_lt (by omega)] at hexponent
    have hmantissa : 2 ^ 52 + fractionField x = m := by
      rw [← hfraction]
      omega
    rw [← hexponent, if_neg (by omega), hmantissa, show ((e + 1075).toNat : Int) - 1075 = e by omega]
    exact ⟨by omega, rfl⟩

theorem unpack_pack (h : b.Valid) : (Float.Model.pack b.unpacked).unpack = b.unpacked := by
  obtain ⟨hfinite, hform⟩ := ofFloat_pack h
  exact (unpack_of_isFinite hfinite).trans (congrArg Binary.unpacked hform)

/-! ### Arithmetic -/

/-- The form of a positive double. -/
theorem Canonical.valid {m : Nat} {e : Int} (h : Canonical m e) (hmost : e ≤ 971) : Binary.Valid ⟨false, m, e⟩ :=
  Or.inr ⟨h, hmost⟩

theorem unpacked_pos {m : Nat} {e : Int} (h : 0 < m) : Binary.unpacked ⟨false, m, e⟩ = .finite .positive m e h :=
  dif_pos h

/-- A whole number of at most 53 bits is a double. -/
theorem exists_canonical {n : Nat} (hpos : 0 < n) (hlt : n < 2 ^ 53) :
    ∃ m e, Canonical m e ∧ 2 ^ 52 ≤ m ∧ e ≤ 0 ∧ (m : ℚ) * 2 ^ e = n := by
  have hlog : n.log2 ≤ 52 := Nat.le_of_lt_succ ((Nat.log2_lt hpos.ne').2 hlt)
  have hlow : 2 ^ 52 ≤ n * 2 ^ (52 - n.log2) := by
    calc 2 ^ 52 = 2 ^ n.log2 * 2 ^ (52 - n.log2) := by rw [← Nat.pow_add, Nat.add_sub_cancel' hlog]
      _ ≤ n * 2 ^ (52 - n.log2) := Nat.mul_le_mul_right _ (Nat.log2_self_le hpos.ne')
  have hhigh : n * 2 ^ (52 - n.log2) < 2 ^ 53 := by
    calc n * 2 ^ (52 - n.log2) < 2 ^ (n.log2 + 1) * 2 ^ (52 - n.log2) :=
          Nat.mul_lt_mul_of_pos_right Nat.lt_log2_self (Nat.two_pow_pos _)
      _ = 2 ^ 53 := by rw [← Nat.pow_add]; congr 1; omega
  refine ⟨n * 2 ^ (52 - n.log2), (n.log2 : Int) - 52, ⟨by omega, hhigh, by omega, Or.inl hlow⟩, hlow, by omega, ?_⟩
  push_cast
  rw [mul_assoc, ← zpow_natCast, ← zpow_add₀ two_ne_zero, show ((52 - n.log2 : Nat) : Int) + (n.log2 - 52) = 0 by omega,
    zpow_zero, mul_one]

variable {m n : Nat} {e : Int}

theorem shiftLeft_mul_zpow (m shift : Nat) (e : Int) : ((m <<< shift : Nat) : ℚ) * 2 ^ (e - shift) = m * 2 ^ e := by
  rw [Nat.shiftLeft_eq, zpow_sub₀ two_ne_zero, zpow_natCast]
  push_cast
  field_simp

/-- A mantissa of any length is rounded. -/
theorem round_eq {e₀ : Int} (hpos : 0 < n) (hc : Canonical m e) (hv : RoundsTo (n * 2 ^ e₀) m e) (sign : Sign) :
    round Format.binary64 sign n e₀ = .finite sign m e hc.pos := by
  have htarget := target_eq n e₀
  generalize hshift : (e₀ - target n e₀).toNat = shift
  have hround : round Format.binary64 sign n e₀ =
      roundWithAccuracy Format.binary64 sign (n <<< shift) (e₀ - shift) .exact := by
    rw [← hshift]
    rfl
  have hlog : (n <<< shift).log2 = n.log2 + shift := by
    obtain ⟨hle, hlt⟩ := (Nat.log2_eq_iff hpos.ne').1 rfl
    rw [Nat.shiftLeft_eq, Nat.log2_eq_iff (by positivity), Nat.add_right_comm, Nat.pow_add, Nat.pow_add]
    exact ⟨Nat.mul_le_mul_right _ hle, Nat.mul_lt_mul_of_pos_right hlt (Nat.two_pow_pos _)⟩
  rw [hround]
  refine roundWithAccuracy_eq (v := n * 2 ^ e₀) ?_ ?_ hc hv sign
  · rw [← shiftLeft_mul_zpow n shift, mul_div_cancel_right₀ _ (by positivity)]
    exact marks_exact _
  · rw [target_eq, hlog]
    omega

theorem ofNat_eq (hpos : 0 < n) (hc : Canonical m e) (hv : RoundsTo n m e) :
    UnpackedFloat.ofNat Format.binary64 n = .finite .positive m e hc.pos := by
  have hcompare : compare (n : Int) 0 = .gt := Int.compare_eq_gt.2 (by omega)
  rw [UnpackedFloat.ofNat, UnpackedFloat.ofInt, Float.Model.UnpackedFloat.normalize, hcompare]
  exact round_eq hpos hc (by rwa [zpow_zero, mul_one]) .positive

/-- The exact sum of two doubles is rounded. -/
theorem add_eq {m₁ m₂ : Nat} {e₁ e₂ : Int} (h₁ : 0 < m₁) (h₂ : 0 < m₂) (hc : Canonical m e)
    (hv : RoundsTo (m₁ * 2 ^ e₁ + m₂ * 2 ^ e₂) m e) :
    add Format.binary64 (.finite .positive m₁ e₁ h₁) (.finite .positive m₂ e₂ h₂) = .finite .positive m e hc.pos := by
  have hshifted : ∀ (m : Nat) (e : Int), min e₁ e₂ ≤ e →
      (m : ℚ) * 2 ^ e = (m <<< (e - min e₁ e₂).toNat : Nat) * 2 ^ min e₁ e₂ := fun m e he => by
    rw [← shiftLeft_mul_zpow m (e - min e₁ e₂).toNat e, Int.toNat_of_nonneg (by omega), Int.sub_sub_self]
  rw [hshifted m₁ e₁ (by omega), hshifted m₂ e₂ (by omega), ← add_mul, ← Nat.cast_add] at hv
  have hpos : 0 < m₁ <<< (e₁ - min e₁ e₂).toNat + m₂ <<< (e₂ - min e₁ e₂).toNat := by
    rw [Nat.shiftLeft_eq]
    positivity
  change normalize Format.binary64
    ((m₁ <<< (e₁ - min e₁ e₂).toNat + m₂ <<< (e₂ - min e₁ e₂).toNat : Nat) : Int) (min e₁ e₂) .positive = _
  rw [Float.Model.UnpackedFloat.normalize, Int.compare_eq_gt.2 (by omega)]
  exact round_eq hpos hc hv .positive

theorem zpow_eq_div (k : Int) : (2 : ℚ) ^ k = 2 ^ k.toNat / 2 ^ (-k).toNat := by
  rw [← zpow_natCast, ← zpow_natCast, ← zpow_sub₀ two_ne_zero]
  congr 1
  omega

theorem ofFloat_powersOfTen : ∀ x ∈ Float.exactlyRepresentablePowersOfTen.toList.zipIdx,
    x.1.isFinite = true ∧ (Binary.ofFloat x.1).negative = false ∧ 2 ^ 52 ≤ (Binary.ofFloat x.1).mantissa ∧
      (Binary.ofFloat x.1).mantissa * 2 ^ (Binary.ofFloat x.1).exponent.toNat =
        10 ^ x.2 * 2 ^ (-(Binary.ofFloat x.1).exponent).toNat := by
  decide +kernel

/-- Small powers of ten are doubles. -/
theorem exists_powerOfTen (i : Nat) (hi : i < Float.exactlyRepresentablePowersOfTen.size) :
    ∃ (p : Nat) (k : Int) (h : 0 < p), 2 ^ 52 ≤ p ∧ (p : ℚ) * 2 ^ k = 10 ^ i ∧
      Float.exactlyRepresentablePowersOfTen[i].toModel.unpack = .finite .positive p k h := by
  generalize hx : Float.exactlyRepresentablePowersOfTen[i] = x
  obtain ⟨hfinite, hsign, hmantissa, hvalue⟩ := ofFloat_powersOfTen (x, i)
    (List.mk_mem_zipIdx_iff_getElem?.2 (by rw [← hx, Array.getElem?_toList, Array.getElem?_eq_getElem hi]))
  have hpos : 0 < (Binary.ofFloat x).mantissa := Nat.lt_of_lt_of_le (by decide) hmantissa
  refine ⟨_, (Binary.ofFloat x).exponent, hpos, hmantissa, ?_, ?_⟩
  · rw [zpow_eq_div, mul_div_assoc', div_eq_iff (by positivity)]
    exact_mod_cast hvalue
  · rw [unpack_of_isFinite hfinite, Binary.unpacked, dif_pos hpos, hsign]
    rfl

/-! ### Decimals -/

theorem Canonical.bounds {v : ℚ} (hc : Canonical m e) (hmost : e ≤ 971) (hv : RoundsTo v m e) :
    2 ^ (-1075 : Int) ≤ v ∧ v < 2 ^ (1024 : Int) := by
  obtain ⟨⟨hlow, hhigh, -⟩, -⟩ := hv
  have hpow : (0 : ℚ) < 2 ^ e := by positivity
  have hleast := hc.least
  have hm : (1 : ℚ) ≤ m := by exact_mod_cast hc.pos
  have hm' : (m : ℚ) + 1 ≤ 2 ^ 53 := by exact_mod_cast hc.lt
  constructor
  · have hhalf : (2 : ℚ) ^ (-1 : Int) ≤ v / 2 ^ e := by norm_num; linarith
    rw [le_div_iff₀ hpow, ← zpow_add₀ two_ne_zero] at hhalf
    exact hhalf.trans' (zpow_le_zpow_right₀ one_le_two (by omega))
  · have hlarge : v / 2 ^ e < (2 : ℚ) ^ (53 : Int) := by norm_num at hm' ⊢; linarith
    rw [div_lt_iff₀ hpow, ← zpow_add₀ two_ne_zero] at hlarge
    exact hlarge.trans_le (zpow_le_zpow_right₀ one_le_two (by omega))

/-- A decimal that lies in the rounding interval of a double is rounded to it. -/
theorem model_ofScientific_eq {d : Nat} {k : Int} (hd : 0 < d) (hc : Canonical m e) (hmost : e ≤ 971)
    (hv : RoundsTo (d * 10 ^ k) m e) :
    UnpackedFloat.ofScientific Format.binary64 d k = .finite .positive m e hc.pos := by
  obtain ⟨hlow, hhigh⟩ := hc.bounds hmost hv
  have hten : ∀ i : Nat, (2 : ℚ) ^ (i : Int) ≤ 10 ^ (i : Int) := fun i => by
    rw [zpow_natCast, zpow_natCast]
    exact pow_le_pow_left₀ (by norm_num) (by norm_num) i
  have hd' : (1 : ℚ) ≤ d := by exact_mod_cast hd
  unfold UnpackedFloat.ofScientific
  rw [dif_neg hd.ne']
  by_cases hk : 0 ≤ k
  · obtain ⟨i, rfl⟩ := Int.eq_ofNat_of_zero_le hk
    have hsmall : (i : Int) < 1024 := by
      refine lt_of_zpow (v := d * 10 ^ (i : Int)) ?_ hhigh
      calc (2 : ℚ) ^ (i : Int) ≤ 10 ^ (i : Int) := hten i
        _ ≤ d * 10 ^ (i : Int) := le_mul_of_one_le_left (by positivity) hd'
    rw [if_neg (by change ¬ (i : Int) > 2048; omega), if_neg (by change ¬ (i : Int) < -(2048 + _); omega), if_pos hk]
    refine mul_eq _ _ ?_ hc ?_
    · rw [Nat.shiftLeft_eq]
      calc 2 ^ 52 ≤ 2 ^ 53 := by decide
        _ ≤ d * 2 ^ 53 := Nat.le_mul_of_pos_left _ hd
        _ ≤ d * 2 ^ 53 * 10 ^ i := Nat.le_mul_of_pos_right _ (by positivity)
    · convert hv using 1
      have hbits : ((d <<< Format.binary64.mantissaBits : Nat) : ℚ) * 2 ^ (-Format.binary64.mantissaBits : Int) = d := by
        rw [Nat.shiftLeft_eq, zpow_neg, zpow_natCast]
        push_cast
        exact mul_inv_cancel_right₀ (by positivity) _
      rw [hbits, zpow_zero, mul_one, zpow_natCast]
      push_cast
      rfl
  · obtain ⟨i, rfl⟩ : ∃ i : Nat, k = -(i : Int) := ⟨k.natAbs, by omega⟩
    have hsmall : (-1075 : Int) < d.log2 + 1 - i := by
      refine lt_of_zpow hlow ?_
      have hd'' : (d : ℚ) < 2 ^ ((d.log2 : Int) + 1) := by exact_mod_cast Nat.lt_log2_self (n := d)
      rw [zpow_neg, ← div_eq_mul_inv, zpow_sub₀ two_ne_zero]
      exact div_lt_div₀ hd'' (hten i) (by positivity) (by positivity)
    rw [if_neg (by change ¬ -(i : Int) > 2048; omega), if_neg (by change ¬ -(i : Int) < -(2048 + _); omega), if_neg hk]
    refine div_eq _ _ hc ?_
    rw [zpow_neg, ← div_eq_mul_inv, zpow_natCast] at hv
    rw [zpow_zero, mul_one, mul_one, Int.neg_neg, Int.toNat_natCast]
    push_cast
    exact hv

/-- A decimal that lies in the rounding interval of a double is read as it. -/
theorem ofScientific_eq {d : Nat} {k : Int} (hd : 0 < d) (hc : Canonical m e) (hmost : e ≤ 971)
    (hv : RoundsTo (d * 10 ^ k) m e) :
    Float.ofScientific d (decide (k < 0)) k.natAbs = .ofModel (.pack (.finite .positive m e hc.pos)) := by
  unfold Float.ofScientific
  split
  · next h =>
    obtain ⟨p, j, hp, hlong, hten, hpower⟩ := exists_powerOfTen k.natAbs (Nat.lt_succ_of_le h.2)
    obtain ⟨a, c, ha, -, hc0, hvalue⟩ := exists_canonical hd h.1
    have hunpack : (d.toUInt64.toFloat).toModel.unpack = .finite .positive a c ha.pos := by
      have htoNat : d.toUInt64.toNat = d := Nat.mod_eq_of_lt (by omega)
      have hround : RoundsTo d a c := hvalue ▸ roundsTo_self
      change (Float.Model.pack (UnpackedFloat.ofNat Format.binary64 d.toUInt64.toNat)).unpack = _
      rw [htoNat, ofNat_eq hd ha hround, ← unpacked_pos, unpack_pack (ha.valid (by omega))]
    dsimp only
    split
    · next hneg =>
      change Float.ofModel (.pack (div Format.binary64 _ _)) = _
      have hk : k = -(k.natAbs : Int) := by
        have := of_decide_eq_true hneg
        omega
      rw [hk, zpow_neg, zpow_natCast, ← div_eq_mul_inv, ← hten, ← hvalue] at hv
      exact congrArg (Float.ofModel <| .pack ·)
        ((congrArg₂ (div Format.binary64) hunpack hpower).trans (div_eq ha.pos hp hc hv))
    · next hneg =>
      change Float.ofModel (.pack (mul Format.binary64 _ _)) = _
      have hk : k = k.natAbs := by
        have := of_decide_eq_false (Bool.eq_false_iff.2 hneg)
        omega
      rw [hk, zpow_natCast, ← hten, ← hvalue] at hv
      exact congrArg (Float.ofModel <| .pack ·) ((congrArg₂ (mul Format.binary64) hunpack hpower).trans
        (mul_eq ha.pos hp (hlong.trans (Nat.le_mul_of_pos_left _ ha.pos)) hc hv))
  · have hk : (if decide (k < 0) = true then Int.negOfNat k.natAbs else Int.ofNat k.natAbs) = k := by
      simp only [decide_eq_true_eq, Int.negOfNat_eq, Int.ofNat_eq_natCast]
      split <;> omega
    change Float.ofModel (.pack (UnpackedFloat.ofScientific Format.binary64 d _)) = _
    rw [hk, model_ofScientific_eq hd hc hmost hv]

end Hygiene.Number
