import Mathlib

/-!
# Rounding to doubles

A number is rounded to a double by bringing its leading bits into a mantissa, with two more bits that tell where the
rest lies, and rounding the mantissa, ties to even. A number in the rounding interval of a double is rounded to that
double: by multiplication, by division, and when a decimal is read.
-/

namespace Hygiene.Number

open Float.Model (Format UnpackedFloat totalExponent)
open Float.Model.UnpackedFloat

variable {m₁ m₂ : Nat}

/-! ### Mantissas -/

/-- The mantissa is the whole part of the number, and its two further bits tell where the rest lies. -/
def Marks : ExtendedMantissa → ℚ → Prop
  | ⟨m, false, false⟩, w => w = m
  | ⟨m, false, true⟩, w => m < w ∧ w < m + 1 / 2
  | ⟨m, true, false⟩, w => w = m + 1 / 2
  | ⟨m, true, true⟩, w => m + 1 / 2 < w ∧ w < m + 1

/-- The number is at most half away from the whole number, and half way only from an even one. -/
def Nearest (n : Nat) (w : ℚ) : Prop :=
  n - 1 / 2 ≤ w ∧ w ≤ n + 1 / 2 ∧ (w = n - 1 / 2 ∨ w = n + 1 / 2 → n % 2 = 0)

variable {em : ExtendedMantissa} {w : ℚ}

theorem Marks.bounds (h : Marks em w) : em.mantissa ≤ w ∧ w < em.mantissa + 1 := by
  obtain ⟨m, r, s⟩ := em
  cases r <;> cases s <;> simp only [Marks] at h ⊢ <;> constructor <;> linarith

theorem Marks.shiftRightOne (h : Marks em w) : Marks em.shiftRightOne (w / 2) := by
  obtain ⟨m, r, s⟩ := em
  have hm : (m : ℚ) = 2 * ((m / 2 : Nat) : ℚ) + ((m % 2 : Nat) : ℚ) := by exact_mod_cast (Nat.div_add_mod m 2).symm
  rcases Nat.mod_two_eq_zero_or_one m with hbit | hbit <;> rw [hbit] at hm <;> push_cast at hm <;>
    cases r <;> cases s <;> simp only [Marks, ExtendedMantissa.shiftRightOne, hbit, bne_self_eq_false, Bool.or_self,
      Bool.or_true, Bool.true_or, Nat.reduceBNe] at h ⊢ <;>
    first | linarith | constructor <;> linarith

theorem Marks.shiftRight (h : Marks em w) (n : Nat) : Marks (em >>> n) (w / 2 ^ n) := by
  induction n with
  | zero =>
    have hzero : em >>> 0 = em := rfl
    rwa [hzero, pow_zero, div_one]
  | succ n ih =>
    have hsucc : em >>> (n + 1) = (em >>> n).shiftRightOne := rfl
    rw [hsucc, pow_succ, ← div_div]
    exact ih.shiftRightOne

/-- A mantissa is rounded to the nearest number. -/
theorem Marks.roundedMantissa (h : Marks em w) {n : Nat} (hn : Nearest n w) : em.roundedMantissa = n := by
  obtain ⟨hlow, hhigh, heven⟩ := hn
  obtain ⟨m, r, s⟩ := em
  cases r <;> cases s <;> simp only [Marks] at h <;>
    simp only [ExtendedMantissa.roundedMantissa, ExtendedMantissa.accuracy, Accuracy.roundToNearestEven]
  case true.false =>
    have h1 : (m : ℚ) ≤ n := by linarith
    have h2 : (n : ℚ) ≤ m + 1 := by linarith
    norm_cast at h1 h2
    rcases Nat.eq_or_lt_of_le h1 with rfl | h1
    · have := heven (Or.inr h)
      omega
    · obtain rfl : n = m + 1 := by omega
      have := heven (Or.inl (by push_cast; linarith))
      omega
  all_goals
    have h1 : (m : ℚ) < n + 1 := by linarith
    have h2 : (n : ℚ) < m + 2 := by linarith
    norm_cast at h1 h2
    rcases (by omega : n = m ∨ n = m + 1) with rfl | rfl
    · first | rfl | (exfalso; linarith)
    · first | rfl | (exfalso; push_cast at hlow; linarith)

theorem marks_exact (m : Nat) : Marks (.ofMantissaAndAccuracy m .exact) m := rfl

/-- A quotient is marked by its whole part and by what is left. -/
theorem marks_fraction (n d : Nat) (hd : 0 < d) :
    Marks (.ofMantissaAndAccuracy (n / d) (accuracyOfFraction (n % d) d)) ((n : ℚ) / d) := by
  have hd' : (0 : ℚ) < d := by exact_mod_cast hd
  have hn : (n : ℚ) / d = (n / d : Nat) + ((n % d : Nat) : ℚ) / d := by
    have : (n : ℚ) = d * (n / d : Nat) + (n % d : Nat) := by exact_mod_cast (Nat.div_add_mod n d).symm
    field_simp
    linarith
  have hlt : ((n % d : Nat) : ℚ) / d < 1 := (div_lt_one hd').2 (by exact_mod_cast Nat.mod_lt n hd)
  unfold accuracyOfFraction
  by_cases hzero : n % d = 0
  · rw [if_pos hzero, hn, hzero]
    simp [Marks, ExtendedMantissa.ofMantissaAndAccuracy]
  · have hpos : 0 < ((n % d : Nat) : ℚ) / d := div_pos (by exact_mod_cast Nat.pos_of_ne_zero hzero) hd'
    rw [if_neg hzero]
    rcases hcmp : compare (2 * (n % d)) d with _ | _ | _ <;>
      simp only [Nat.compare_eq_lt, Nat.compare_eq_eq, Nat.compare_eq_gt, ← Nat.cast_lt (α := ℚ),
        ← Nat.cast_inj (R := ℚ), Nat.cast_mul, Nat.cast_ofNat] at hcmp <;>
      simp only [Marks, ExtendedMantissa.ofMantissaAndAccuracy, hn]
    · have : ((n % d : Nat) : ℚ) / d < 1 / 2 := (div_lt_iff₀ hd').2 (by linarith)
      constructor <;> linarith
    · have : ((n % d : Nat) : ℚ) / d = 1 / 2 := (div_eq_iff hd'.ne').2 (by linarith)
      linarith
    · have : 1 / 2 < ((n % d : Nat) : ℚ) / d := (lt_div_iff₀ hd').2 (by linarith)
      constructor <;> linarith

/-! ### Exponents -/

/-- The exponent for a number with the given leading bits: the mantissa gets 53 bits, but for the smallest numbers. -/
def target (m : Nat) (e : Int) : Int := Format.binary64.targetExponent (totalExponent m e)

theorem target_eq (m : Nat) (e : Int) : target m e = max (m.log2 + e - 52) (-1074) := by
  simp only [target, Format.targetExponent, totalExponent, Format.mantissaBits, Format.minExponent]
  omega

/-- The mantissa and the exponent of a positive double. -/
structure Canonical (m : Nat) (e : Int) : Prop where
  pos : 0 < m
  lt : m < 2 ^ 53
  least : -1074 ≤ e
  normal : 2 ^ 52 ≤ m ∨ e = -1074

theorem Canonical.target_eq {m : Nat} {e : Int} (h : Canonical m e) : target m e = e := by
  have hlog : m.log2 < 53 := (Nat.log2_lt h.pos.ne').2 h.lt
  have hleast := h.least
  rw [Number.target_eq]
  rcases h.normal with hnormal | rfl
  · have := (Nat.le_log2 h.pos.ne').2 hnormal
    omega
  · omega

/-- The number lies in the rounding interval of the double `m · 2 ^ e`. The gap below a power of two is half as wide,
except at the least exponent. -/
def RoundsTo (v : ℚ) (m : Nat) (e : Int) : Prop :=
  Nearest m (v / 2 ^ e) ∧ (m = 2 ^ 52 → -1074 < e → 2 ^ 52 - 1 / 4 ≤ v / 2 ^ e)

theorem roundsTo_self {m : Nat} {e : Int} : RoundsTo (m * 2 ^ e) m e := by
  rw [RoundsTo, mul_div_cancel_right₀ _ (by positivity)]
  refine ⟨⟨by linarith, by linarith, ?_⟩, ?_⟩
  · rintro (h | h) <;> linarith
  · rintro rfl _
    norm_num

variable {v : ℚ} {m n : Nat} {e k : Int} {acc : Accuracy}

theorem lt_of_zpow {i j : Int} (hi : (2 : ℚ) ^ i ≤ v) (hj : v < 2 ^ j) : i < j :=
  (zpow_lt_zpow_iff_right₀ one_lt_two).1 (hi.trans_lt hj)

/-- The leading bits tell how large the number is. -/
theorem Marks.zpow_bounds (h : Marks (.ofMantissaAndAccuracy m acc) (v / 2 ^ e)) :
    v < 2 ^ (m.log2 + e + 1) ∧ (m ≠ 0 → 2 ^ (m.log2 + e) ≤ v) := by
  obtain ⟨hm, hm'⟩ := h.bounds
  have hmantissa : (ExtendedMantissa.ofMantissaAndAccuracy m acc).mantissa = m := by
    rcases acc with _ | _ | _ | _ <;> rfl
  have hpow : (0 : ℚ) < 2 ^ e := by positivity
  rw [hmantissa] at hm hm'
  rw [le_div_iff₀ hpow] at hm
  rw [div_lt_iff₀ hpow] at hm'
  rw [show (m.log2 + e + 1 : Int) = (m.log2 + 1 : Nat) + e by push_cast; ring, zpow_add₀ two_ne_zero,
    zpow_add₀ two_ne_zero, zpow_natCast, zpow_natCast]
  refine ⟨hm'.trans_le ?_, fun hne => hm.trans' ?_⟩
  · have : m + 1 ≤ 2 ^ (m.log2 + 1) := Nat.lt_log2_self
    gcongr
    exact_mod_cast this
  · have := Nat.log2_self_le hne
    gcongr
    exact_mod_cast this

/-- A number is brought to the exponent of the double in whose interval it lies, or to the one below if it is less than
the power of two that the double is. -/
theorem target_of_roundsTo (hmarks : Marks (.ofMantissaAndAccuracy m acc) (v / 2 ^ e)) (henough : e ≤ target m e)
    (hc : Canonical n k) (hv : RoundsTo v n k) :
    target m e = k ∨ target m e = k - 1 ∧ n = 2 ^ 52 ∧ v / 2 ^ k < 2 ^ 52 ∧ -1074 < k := by
  have hpow : (0 : ℚ) < 2 ^ k := by positivity
  obtain ⟨⟨hlow, hhigh, -⟩, -⟩ := hv
  obtain ⟨hlt, hle⟩ := hmarks.zpow_bounds
  have hscale : ∀ i : Nat, (2 ^ i : ℚ) * 2 ^ k = 2 ^ (k + i) := fun i => by
    rw [zpow_add₀ two_ne_zero, zpow_natCast, mul_comm]
  have hleast := hc.least
  have hn : (n : ℚ) + 1 ≤ 2 ^ 53 := by exact_mod_cast hc.lt
  have hv₁ : v < 2 ^ (k + 53) := by
    have : v / 2 ^ k < 2 ^ 53 := by linarith
    rwa [div_lt_iff₀ hpow, hscale] at this
  have hv₂ : 2 ^ 52 ≤ n → (2 : ℚ) ^ (k + 51) ≤ v := by
    intro hn
    have hn' : (2 : ℚ) ^ 52 ≤ n := by exact_mod_cast hn
    have : (2 : ℚ) ^ 51 ≤ v / 2 ^ k := by linarith
    rwa [le_div_iff₀ hpow, hscale] at this
  rw [target_eq] at henough ⊢
  rcases Nat.eq_zero_or_pos m with rfl | hpos
  · rw [Nat.log2_zero] at henough hlt ⊢
    have : ¬ 2 ^ 52 ≤ n := fun h => by
      have := lt_of_zpow (hv₂ h) hlt
      omega
    have := hc.normal.resolve_left this
    omega
  have hle := hle hpos.ne'
  have hup := lt_of_zpow hle hv₁
  by_cases hbig : (2 : ℚ) ^ 52 ≤ v / 2 ^ k
  · rw [le_div_iff₀ hpow, hscale] at hbig
    have := lt_of_zpow hbig hlt
    omega
  · rw [not_le] at hbig
    have hbig' := hbig
    rw [div_lt_iff₀ hpow, hscale] at hbig'
    have hlog := lt_of_zpow hle hbig'
    rcases hc.normal with hnormal | rfl
    · have := lt_of_zpow (hv₂ hnormal) hlt
      have hn : (n : ℚ) < (2 ^ 52 : Nat) + 1 := by push_cast; linarith
      have : n = 2 ^ 52 := by
        norm_cast at hn
        omega
      by_cases hk : k = -1074
      · omega
      · exact Or.inr ⟨by omega, this, hbig, by omega⟩
    · omega

theorem Marks.shiftToTarget (h : Marks (.ofMantissaAndAccuracy m acc) (v / 2 ^ e)) (henough : e ≤ target m e) :
    ∃ em, shiftToTargetExponent Format.binary64 m e acc = (em, target m e) ∧ Marks em (v / 2 ^ target m e) := by
  have hexponent : e + (target m e - e).toNat = target m e := by omega
  refine ⟨_, Prod.ext rfl hexponent, ?_⟩
  have hshift := h.shiftRight (target m e - e).toNat
  rwa [div_div, ← zpow_natCast, ← zpow_add₀ two_ne_zero, hexponent] at hshift

/-- A rounded mantissa that has become too long is a power of two, and is shifted once more. -/
theorem roundWithAccuracy_of_shifts {em s : ExtendedMantissa} {t : Int} {sign : Sign}
    (hfirst : shiftToTargetExponent Format.binary64 m e acc = (em, t))
    (hsecond : shiftToTargetExponent Format.binary64 em.roundedMantissa t .exact = (s, k)) (hn : s.mantissa = n)
    (hpos : 0 < n) : roundWithAccuracy Format.binary64 sign m e acc = .finite sign n k hpos := by
  subst hn
  unfold roundWithAccuracy
  rw [hfirst]
  dsimp only
  rw [hsecond]
  exact dif_neg hpos.ne'

/-- If a number lies in the rounding interval of a double, it is rounded to it. -/
theorem roundWithAccuracy_eq (hmarks : Marks (.ofMantissaAndAccuracy m acc) (v / 2 ^ e)) (henough : e ≤ target m e)
    (hc : Canonical n k) (hv : RoundsTo v n k) (sign : Sign) :
    roundWithAccuracy Format.binary64 sign m e acc = .finite sign n k hc.pos := by
  obtain ⟨em, hem, hmarks'⟩ := hmarks.shiftToTarget henough
  have hzero : ∀ em : ExtendedMantissa, em >>> 0 = em := fun _ => rfl
  rcases target_of_roundsTo hmarks henough hc hv with ht | ⟨ht, rfl, hlt, hk⟩ <;> rw [ht] at hem hmarks'
  · refine roundWithAccuracy_of_shifts hem ?_ (s := ⟨n, false, false⟩) rfl hc.pos
    have htarget : Format.binary64.targetExponent (totalExponent n k) = k := hc.target_eq
    rw [hmarks'.roundedMantissa hv.1, shiftToTargetExponent, htarget, shiftToExponent, Int.sub_self]
    simp [hzero, ExtendedMantissa.ofMantissaAndAccuracy]
  · have hnearest : Nearest (2 ^ 53) (v / 2 ^ (k - 1)) := by
      have hgap := hv.2 rfl hk
      have hunit : v / 2 ^ (k - 1) = v / 2 ^ k * 2 := by
        rw [zpow_sub₀ two_ne_zero, zpow_one]
        field_simp
      rw [hunit, Nearest]
      push_cast
      exact ⟨by linarith, by linarith, fun _ => by norm_num⟩
    have htarget : Format.binary64.targetExponent (totalExponent (2 ^ 53) (k - 1)) = k := by
      have := target_eq (2 ^ 53) (k - 1)
      rw [Nat.log2_two_pow, target] at this
      rw [this]
      omega
    refine roundWithAccuracy_of_shifts hem ?_ (s := ⟨2 ^ 52, false, false⟩) rfl hc.pos
    rw [hmarks'.roundedMantissa hnearest, shiftToTargetExponent, htarget, shiftToExponent, Int.sub_sub_self]
    exact Prod.ext rfl (Int.sub_add_cancel k 1)

/-! ### Products and quotients -/

/-- The exact product of two doubles is rounded. -/
theorem mul_eq {e₁ e₂ : Int} (h₁ : 0 < m₁) (h₂ : 0 < m₂) (hlong : 2 ^ 52 ≤ m₁ * m₂) (hc : Canonical n k)
    (hv : RoundsTo (m₁ * 2 ^ e₁ * (m₂ * 2 ^ e₂)) n k) :
    mul Format.binary64 (.finite .positive m₁ e₁ h₁) (.finite .positive m₂ e₂ h₂) = .finite .positive n k hc.pos := by
  refine roundWithAccuracy_eq (v := m₁ * 2 ^ e₁ * (m₂ * 2 ^ e₂)) ?_ ?_ hc hv _
  · have hmarks := marks_exact (m₁ * m₂)
    convert hmarks using 1
    rw [zpow_add₀ two_ne_zero]
    push_cast
    field_simp
  · have := (Nat.le_log2 (Nat.mul_pos h₁ h₂).ne').2 hlong
    rw [target_eq]
    omega

/-- A quotient is formed with enough bits for a mantissa. -/
theorem le_target_quotient {shift : Nat} {t : Int} (h₁ : 0 < m₁) (h₂ : 0 < m₂)
    (h : t ≤ -1074 ∨ (m₂.log2 : Int) + 53 ≤ m₁.log2 + shift) : t ≤ target ((m₁ <<< shift) / m₂) t := by
  rw [target_eq]
  rcases h with h | h
  · omega
  · have hlong : 2 ^ 52 * m₂ ≤ m₁ <<< shift := by
      calc 2 ^ 52 * m₂ ≤ 2 ^ 52 * 2 ^ (m₂.log2 + 1) := Nat.mul_le_mul_left _ Nat.lt_log2_self.le
        _ = 2 ^ (m₂.log2 + 53) := by rw [← Nat.pow_add]; congr 1; omega
        _ ≤ 2 ^ (m₁.log2 + shift) := Nat.pow_le_pow_right (by decide) (by omega)
        _ ≤ m₁ * 2 ^ shift := by rw [Nat.pow_add]; exact Nat.mul_le_mul_right _ (Nat.log2_self_le h₁.ne')
        _ = m₁ <<< shift := (Nat.shiftLeft_eq ..).symm
    have hq : 2 ^ 52 ≤ (m₁ <<< shift) / m₂ := (Nat.le_div_iff_mul_le h₂).2 hlong
    have := (Nat.le_log2 (by omega)).2 hq
    omega

/-- The exact quotient of two doubles is rounded. -/
theorem div_eq {e₁ e₂ : Int} (h₁ : 0 < m₁) (h₂ : 0 < m₂) (hc : Canonical n k)
    (hv : RoundsTo (m₁ * 2 ^ e₁ / (m₂ * 2 ^ e₂)) n k) :
    div Format.binary64 (.finite .positive m₁ e₁ h₁) (.finite .positive m₂ e₂ h₂) = .finite .positive n k hc.pos := by
  set t := min (e₁ - e₂) (Format.binary64.targetExponent (totalExponent m₁ e₁ - totalExponent m₂ e₂)) with ht
  set shift := (e₁ - e₂ - t).toNat with hshift
  have hexponent : (shift : Int) = e₁ - e₂ - t := by omega
  have hmarks : Marks (.ofMantissaAndAccuracy ((m₁ <<< shift) / m₂) (accuracyOfFraction ((m₁ <<< shift) % m₂) m₂))
      (m₁ * (2 : ℚ) ^ e₁ / (m₂ * 2 ^ e₂) / 2 ^ t) := by
    convert marks_fraction (m₁ <<< shift) m₂ h₂ using 1
    rw [Nat.shiftLeft_eq]
    push_cast
    rw [← zpow_natCast, hexponent, zpow_sub₀ two_ne_zero, zpow_sub₀ two_ne_zero]
    field_simp
  refine roundWithAccuracy_eq hmarks (le_target_quotient h₁ h₂ ?_) hc hv _
  simp only [Format.targetExponent, totalExponent, Format.mantissaBits, Format.minExponent] at ht
  omega

end Hygiene.Number
