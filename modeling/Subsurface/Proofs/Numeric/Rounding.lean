import Mathlib
import Subsurface.Proofs.Geometry.Exact
/-!
Rounding to nearest, ties to even.

A double operation computes its result exactly, or as a mantissa with two
residual bits, and rounds it in `roundWithAccuracy`: the mantissa is shifted
right to the exponent the format allows for a result of its size, each shift
folding the bit that falls off into the round and sticky bits, and the
mantissa is then rounded to nearest, ties to even, from these two bits.

Read over the reals this is `nearest`. The leading bit of a magnitude `a`
fixes its quantum, `2^(⌊log₂ a⌋ - 52)` but never below the least subnormal
`2^-1074`, and `a` goes to the nearest multiple of the quantum, the even one
at a tie (`roundWithAccuracy_stands`). That rounding is monotone
(`nearest_mono`): within one quantum the integer rounding is, and a value
with a larger quantum lies past every rounding made with a smaller one.
-/

open Float.Model UnpackedFloat

namespace Subsurface

namespace Doubles

/-! ## Nearest integers, ties to even -/

/-- The integer nearest to `x`, the even one of two at a tie. -/
noncomputable def roundEven (x : ℝ) : ℤ :=
  if x - ⌊x⌋ < 1 / ((2 : ℕ) : ℝ) then ⌊x⌋
  else if 1 / ((2 : ℕ) : ℝ) < x - ⌊x⌋ then ⌊x⌋ + 1
  else ⌊x⌋ + ⌊x⌋ % 2

theorem roundEven_bounds (x : ℝ) : ⌊x⌋ ≤ roundEven x ∧ roundEven x ≤ ⌊x⌋ + 1 := by
  have h0 := Int.emod_nonneg ⌊x⌋ (by norm_num : (2 : ℤ) ≠ 0)
  have h1 := Int.emod_lt_of_pos ⌊x⌋ (by norm_num : (0 : ℤ) < 2)
  unfold roundEven
  split_ifs <;> omega

@[simp] theorem roundEven_intCast (k : ℤ) : roundEven k = k := by
  simp [roundEven]

theorem roundEven_mono : Monotone roundEven := by
  intro x y hxy
  rcases (Int.floor_mono hxy).lt_or_eq with hlt | heq
  · -- a unit apart, the roundings are ordered through the floor of `y`
    calc roundEven x ≤ ⌊x⌋ + 1 := (roundEven_bounds x).2
      _ ≤ ⌊y⌋ := hlt
      _ ≤ roundEven y := (roundEven_bounds y).1
  · -- on one floor the fractional parts are ordered, and with them the outcomes
    have hfrac : x - ⌊x⌋ ≤ y - ⌊y⌋ := by rw [heq]; linarith
    have h0 := Int.emod_nonneg ⌊x⌋ (by norm_num : (2 : ℤ) ≠ 0)
    have h1 := Int.emod_lt_of_pos ⌊x⌋ (by norm_num : (0 : ℤ) < 2)
    unfold roundEven
    rw [← heq] at hfrac ⊢
    split_ifs <;> first | omega | (exfalso; linarith)

theorem roundEven_nonneg {x : ℝ} (hx : 0 ≤ x) : 0 ≤ roundEven x :=
  (Int.floor_nonneg.2 hx).trans (roundEven_bounds x).1

theorem roundEven_le_of_lt {x : ℝ} {k : ℤ} (h : x < k) : roundEven x ≤ k := by
  have := Int.floor_lt.2 h
  linarith [(roundEven_bounds x).2]

theorem le_roundEven_of_le {x : ℝ} {k : ℤ} (h : (k : ℝ) ≤ x) : k ≤ roundEven x :=
  (Int.le_floor.2 h).trans (roundEven_bounds x).1

/-! ## The quantum of a magnitude -/

/-- The exponent of the quantum of magnitude `a`: 52 bits below its leading
bit, but not below the least subnormal. -/
noncomputable def quantumExp (a : ℝ) : ℤ := max (Int.log 2 a - 52) (-1074)

/-- A magnitude rounded to nearest, ties to even, among the doubles of
unbounded exponent. -/
noncomputable def nearest (a : ℝ) : ℝ :=
  roundEven (a / ((2 : ℕ) : ℝ) ^ quantumExp a) * ((2 : ℕ) : ℝ) ^ quantumExp a

theorem quantumExp_mono {a b : ℝ} (ha : 0 < a) (hab : a ≤ b) : quantumExp a ≤ quantumExp b := by
  have := Int.log_mono_right (b := 2) ha hab
  unfold quantumExp
  omega

theorem div_quantum_lt (a : ℝ) : a / 2 ^ quantumExp a < 2 ^ (53 : ℤ) := by
  have hlt : a < 2 ^ (Int.log 2 a + 1) := Int.lt_zpow_succ_log_self (by norm_num) a
  rw [div_lt_iff₀ (by positivity), ← zpow_add₀ two_ne_zero]
  exact hlt.trans_le (zpow_le_zpow_right₀ (by norm_num) (by unfold quantumExp; omega))

/-- A magnitude whose quantum is above the least subnormal is at least
`2^52` quanta. -/
theorem le_div_quantum {a : ℝ} (ha : 0 < a) (hq : -1074 < quantumExp a) :
    2 ^ (52 : ℤ) ≤ a / 2 ^ quantumExp a := by
  have hle : (2 : ℝ) ^ Int.log 2 a ≤ a := Int.zpow_log_le_self (by norm_num) ha
  have hexp : quantumExp a = Int.log 2 a - 52 := by unfold quantumExp at hq ⊢; omega
  rw [le_div_iff₀ (by positivity), ← zpow_add₀ two_ne_zero, hexp]
  simpa using hle

theorem nearest_zero : nearest 0 = 0 := by
  rw [nearest, zero_div, ← Int.cast_zero, roundEven_intCast, Int.cast_zero, zero_mul]

theorem nearest_nonneg {a : ℝ} (ha : 0 ≤ a) : 0 ≤ nearest a :=
  mul_nonneg (Int.cast_nonneg (roundEven_nonneg (by positivity))) (by positivity)

theorem nearest_le (a : ℝ) : nearest a ≤ 2 ^ (quantumExp a + 53) := by
  have hr : roundEven (a / 2 ^ quantumExp a) ≤ 2 ^ 53 :=
    roundEven_le_of_lt (by exact_mod_cast div_quantum_lt a)
  rw [nearest, zpow_add₀ two_ne_zero, mul_comm ((2 : ℝ) ^ quantumExp a)]
  exact mul_le_mul_of_nonneg_right (by exact_mod_cast hr) (by positivity)

theorem le_nearest {a : ℝ} (ha : 0 < a) (hq : -1074 < quantumExp a) :
    2 ^ (quantumExp a + 52) ≤ nearest a := by
  have hr : 2 ^ 52 ≤ roundEven (a / 2 ^ quantumExp a) :=
    le_roundEven_of_le (by exact_mod_cast le_div_quantum ha hq)
  rw [nearest, zpow_add₀ two_ne_zero, mul_comm ((2 : ℝ) ^ quantumExp a)]
  exact mul_le_mul_of_nonneg_right (by exact_mod_cast hr) (by positivity)

/-- Rounding to nearest is monotone on magnitudes. -/
theorem nearest_mono {a b : ℝ} (ha : 0 ≤ a) (hab : a ≤ b) : nearest a ≤ nearest b := by
  rcases ha.lt_or_eq with ha | rfl
  · have hq := quantumExp_mono ha hab
    rcases hq.lt_or_eq with hlt | heq
    · -- `b` has the larger quantum: it rounds at or past `2^53` quanta of `a`
      calc nearest a ≤ 2 ^ (quantumExp a + 53) := nearest_le a
        _ ≤ 2 ^ (quantumExp b + 52) := zpow_le_zpow_right₀ (by norm_num) (by omega)
        _ ≤ nearest b := le_nearest (ha.trans_le hab) (by unfold quantumExp at hlt ⊢; omega)
    · -- one quantum: the integer rounding is monotone
      unfold nearest
      rw [heq]
      have hdiv : a / 2 ^ quantumExp b ≤ b / 2 ^ quantumExp b :=
        div_le_div_of_nonneg_right hab (by positivity)
      exact mul_le_mul_of_nonneg_right (by exact_mod_cast roundEven_mono hdiv) (by positivity)
  · rw [nearest_zero]
    exact nearest_nonneg hab

/-- A natural number below `2^53` is its own nearest double: its quantum is at
most one. -/
theorem nearest_natCast {k : ℕ} (hk : k < 2 ^ 53) : nearest k = k := by
  rcases Nat.eq_zero_or_pos k with rfl | hpos
  · exact_mod_cast nearest_zero
  have hlog : Int.log 2 (k : ℝ) ≤ 52 := by
    rw [Int.log_natCast]
    exact_mod_cast Nat.lt_succ_iff.1 (Nat.log_lt_of_lt_pow (by omega) hk)
  obtain ⟨j, hj⟩ : ∃ j : ℕ, quantumExp k = -j :=
    ⟨(-quantumExp k).toNat, by unfold quantumExp; omega⟩
  have hint : (k : ℝ) / 2 ^ quantumExp k = ((k * 2 ^ j : ℕ) : ℤ) := by
    rw [hj, zpow_neg, zpow_natCast, div_inv_eq_mul]
    push_cast
    ring
  rw [nearest, Nat.cast_ofNat, hint, roundEven_intCast, ← hint,
    div_mul_cancel₀ _ (zpow_ne_zero _ two_ne_zero)]

/-! ## Mantissas with round and sticky bits -/

/-- What an extended mantissa says of the exact value `x` it stands for, in
units of its last bit: the round bit tells whether `x` reaches the half past
the mantissa, the sticky bit whether `x` is off the mantissa and off the
half. -/
def Represents (em : ExtendedMantissa) (x : ℝ) : Prop :=
  if em.roundBit then
    if em.stickyBit then (em.mantissa : ℝ) + 1 / ((2 : ℕ) : ℝ) < x ∧ x < em.mantissa + 1
    else x = em.mantissa + 1 / ((2 : ℕ) : ℝ)
  else
    if em.stickyBit then (em.mantissa : ℝ) < x ∧ x < em.mantissa + 1 / ((2 : ℕ) : ℝ)
    else x = em.mantissa

theorem represents_exact (m : ℕ) : Represents (.ofMantissaAndAccuracy m .exact) m := by
  simp [Represents, ExtendedMantissa.ofMantissaAndAccuracy]

/-- The accuracy a division computes from its remainder `r` over the divisor
`d` represents the quotient `q` plus `r / d`. -/
theorem represents_fraction (q : ℕ) {r d : ℕ} (hd : 0 < d) (hr : r < d) :
    Represents (.ofMantissaAndAccuracy q (accuracyOfFraction r d)) (q + r / d) := by
  have hdR : (0 : ℝ) < d := by exact_mod_cast hd
  have hfrac : (r : ℝ) / d < 1 := (div_lt_one hdR).2 (by exact_mod_cast hr)
  unfold accuracyOfFraction
  by_cases h0 : r = 0
  · rw [if_pos h0, h0]
    simp [Represents, ExtendedMantissa.ofMantissaAndAccuracy]
  rw [if_neg h0]
  have hpos : (0 : ℝ) < r / d := div_pos (by exact_mod_cast Nat.pos_of_ne_zero h0) hdR
  -- the remainder compares with half the divisor as the fraction with one half
  rcases h : compare (2 * r) d with _ | _ | _
  · have hlt : (r : ℝ) / d < 1 / 2 := by
      rw [div_lt_div_iff₀ hdR (by norm_num)]
      exact_mod_cast (show r * 2 < 1 * d by have := Nat.compare_eq_lt.1 h; omega)
    simp only [Represents, Nat.cast_ofNat, ExtendedMantissa.ofMantissaAndAccuracy, if_true, if_false,
      Bool.false_eq_true]
    constructor <;> linarith
  · have heq : (r : ℝ) / d = 1 / 2 := by
      rw [div_eq_div_iff hdR.ne' (by norm_num)]
      exact_mod_cast (by simpa [mul_comm] using Nat.compare_eq_eq.1 h : r * 2 = 1 * d)
    simp only [Represents, Nat.cast_ofNat, ExtendedMantissa.ofMantissaAndAccuracy, if_true, if_false,
      Bool.false_eq_true, heq]
  · have hgt : 1 / 2 < (r : ℝ) / d := by
      rw [div_lt_div_iff₀ (by norm_num) hdR]
      exact_mod_cast (show 1 * d < r * 2 by have := Nat.compare_eq_gt.1 h; omega)
    simp only [Represents, Nat.cast_ofNat, ExtendedMantissa.ofMantissaAndAccuracy, if_true]
    constructor <;> linarith

theorem Represents.bounds {em : ExtendedMantissa} {x : ℝ} (h : Represents em x) :
    (em.mantissa : ℝ) ≤ x ∧ x < em.mantissa + 1 := by
  unfold Represents at h
  split_ifs at h
  · exact ⟨by linarith [h.1], h.2⟩
  · rw [h]; constructor <;> linarith
  · exact ⟨h.1.le, by linarith [h.2]⟩
  · rw [h]; constructor <;> linarith

theorem Represents.floor {em : ExtendedMantissa} {x : ℝ} (h : Represents em x) :
    ⌊x⌋ = (em.mantissa : ℤ) :=
  Int.floor_eq_iff.2 (by exact_mod_cast h.bounds)

/-- Rounding an extended mantissa by its two bits rounds the value it
represents to nearest, ties to even. -/
theorem Represents.roundedMantissa {em : ExtendedMantissa} {x : ℝ} (h : Represents em x) :
    (em.roundedMantissa : ℤ) = roundEven x := by
  rcases em with ⟨m, r, s⟩
  have hf : ⌊x⌋ = m := h.floor
  unfold roundEven
  rw [hf, Int.cast_natCast]
  cases r <;> cases s <;>
    simp only [Represents, Nat.cast_ofNat, if_true, if_false, Bool.false_eq_true] at h
  · rw [if_pos (by rw [h]; norm_num)]; rfl
  · rw [if_pos (by linarith [h.2])]; rfl
  · -- a tie: the mantissa goes to the even neighbour
    rw [if_neg (by rw [h]; norm_num), if_neg (by rw [h]; norm_num)]
    show ((m + m % 2 : ℕ) : ℤ) = m + m % 2
    push_cast
    rfl
  · rw [if_neg (by linarith [h.1]), if_pos (by linarith [h.1])]
    show ((m + 1 : ℕ) : ℤ) = m + 1
    push_cast
    rfl

theorem Represents.shiftRightOne {em : ExtendedMantissa} {x : ℝ} (h : Represents em x) :
    Represents em.shiftRightOne (x / 2) := by
  rcases em with ⟨m, r, s⟩
  -- the bit shifted out becomes the round bit, the old bits fold into the sticky one
  have hc : ((m % 2 : ℕ) : ℝ) + 2 * ((m / 2 : ℕ) : ℝ) = m := by exact_mod_cast Nat.mod_add_div m 2
  have hbit : m % 2 = 0 ∨ m % 2 = 1 := Nat.mod_two_eq_zero_or_one m
  cases r <;> cases s <;> rcases hbit with hb | hb <;>
    simp +decide only [Represents, Nat.cast_ofNat, ExtendedMantissa.shiftRightOne, hb, Bool.false_eq_true,
      if_true, if_false, Bool.or_self, Bool.or_true, Bool.true_or, Nat.cast_zero, Nat.cast_one]
      at h hc ⊢ <;>
    first
    | (constructor <;> linarith [h.1, h.2])
    | (constructor <;> linarith)
    | linarith

theorem Represents.shiftRight {em : ExtendedMantissa} {x : ℝ} (h : Represents em x) (n : ℕ) :
    Represents (em >>> n) (x / 2 ^ n) := by
  change Represents (n.repeat ExtendedMantissa.shiftRightOne em) _
  induction n with
  | zero => simpa [Nat.repeat] using h
  | succ n ih =>
    rw [Nat.repeat, pow_succ, ← div_div]
    exact ih.shiftRightOne

@[simp] theorem mantissa_ofMantissaAndAccuracy (m : ℕ) (acc : Accuracy) :
    (ExtendedMantissa.ofMantissaAndAccuracy m acc).mantissa = m := by
  rcases acc with _ | ⟨_ | _ | _⟩ <;> rfl

/-! ## Rounding in the format of doubles -/

theorem targetExponent_eq (t : ℤ) : Format.binary64.targetExponent t = max (t - 53) (-1074) := rfl

/-- A mantissa and exponent in the canonical form of a double: at most 53
bits, an exponent no lower than that of the least subnormal, and a full 53
bits unless the exponent is that one. -/
def Canonical (m : ℕ) (e : ℤ) : Prop := m < 2 ^ 53 ∧ -1074 ≤ e ∧ (2 ^ 52 ≤ m ∨ e = -1074)

/-- `u` is a double of sign `s` and magnitude `a` in canonical form, its
exponent possibly too large to encode. -/
def Stands : UnpackedFloat → Sign → ℝ → Prop
  | .zero t, s, a => t = s ∧ a = 0
  | .finite t m e _, s, a => t = s ∧ Canonical m e ∧ a = m * ((2 : ℕ) : ℝ) ^ e
  | _, _, _ => False

theorem roundWithAccuracy_eq (s : Sign) (m : ℕ) (e : ℤ) (acc : Accuracy) :
    roundWithAccuracy .binary64 s m e acc =
      let first := shiftToTargetExponent .binary64 m e acc
      let final := shiftToTargetExponent .binary64 first.1.roundedMantissa first.2 .exact
      if h : final.1.mantissa = 0 then .zero s
      else .finite s final.1.mantissa final.2 (Nat.pos_of_ne_zero h) := rfl

theorem shiftToTargetExponent_eq {m : ℕ} {e : ℤ} (acc : Accuracy)
    (he : e ≤ Format.binary64.targetExponent (totalExponent m e)) :
    shiftToTargetExponent .binary64 m e acc =
      (ExtendedMantissa.ofMantissaAndAccuracy m acc >>>
          (Format.binary64.targetExponent (totalExponent m e) - e).toNat,
        Format.binary64.targetExponent (totalExponent m e)) := by
  unfold shiftToTargetExponent shiftToExponent
  dsimp only
  rw [Prod.mk.injEq]
  exact ⟨rfl, by omega⟩

/-- The second shift of `roundWithAccuracy`: a rounded mantissa below `2^53`
stays where it is, and one that carried to `2^53` is halved into the next
exponent. -/
theorem carry_stands {R : ℕ} {T : ℤ} (hR : R ≤ 2 ^ 53) (hT : -1074 ≤ T)
    (hlow : 2 ^ 52 ≤ R ∨ T = -1074) (s : Sign) :
    Stands (if h : (shiftToTargetExponent .binary64 R T .exact).1.mantissa = 0 then .zero s
      else .finite s (shiftToTargetExponent .binary64 R T .exact).1.mantissa
        (shiftToTargetExponent .binary64 R T .exact).2 (Nat.pos_of_ne_zero h)) s (R * 2 ^ T) := by
  rcases hR.lt_or_eq with hlt | rfl
  · -- no carry: the target exponent of `R` is at most `T`, so nothing shifts
    have hlog : R.log2 < 53 := by
      rcases Nat.eq_zero_or_pos R with h0 | hpos
      · simp [h0]
      · exact (Nat.log2_lt hpos.ne').2 hlt
    have hshift : shiftToTargetExponent .binary64 R T .exact = (.ofMantissaAndAccuracy R .exact, T) := by
      have h0 : (Format.binary64.targetExponent (totalExponent R T) - T).toNat = 0 := by
        rw [targetExponent_eq]
        unfold totalExponent
        omega
      unfold shiftToTargetExponent shiftToExponent
      dsimp only
      rw [h0]
      exact Prod.ext rfl (add_zero T)
    simp only [hshift, mantissa_ofMantissaAndAccuracy]
    by_cases h0 : R = 0
    · rw [dif_pos h0, h0]
      exact ⟨rfl, by simp⟩
    · rw [dif_neg h0]
      exact ⟨rfl, ⟨hlt, hT, hlow⟩, rfl⟩
  · -- a carry to `2^53`: one more shift halves it exactly into the next exponent
    have htarget : Format.binary64.targetExponent (totalExponent (2 ^ 53) T) = T + 1 := by
      rw [targetExponent_eq]
      unfold totalExponent
      rw [Nat.log2_two_pow]
      omega
    have hshift : shiftToTargetExponent .binary64 (2 ^ 53) T .exact =
        (.ofMantissaAndAccuracy (2 ^ 52) .exact, T + 1) := by
      unfold shiftToTargetExponent shiftToExponent
      dsimp only
      rw [htarget, show (T + 1 - T).toNat = 1 by omega]
      rfl
    simp only [hshift, mantissa_ofMantissaAndAccuracy]
    rw [dif_neg (by norm_num)]
    refine ⟨rfl, ⟨by norm_num, by omega, .inl le_rfl⟩, ?_⟩
    rw [Nat.cast_ofNat, zpow_add_one₀ two_ne_zero]
    push_cast
    ring

/-- A magnitude of `m` to `m + 1` units of `2^e`, `m` positive, has its
leading bit where `m·2^e` has it. -/
theorem log_of_mantissa {m : ℕ} {e : ℤ} {x : ℝ} (hm : 0 < m) (hxm : (m : ℝ) ≤ x ∧ x < m + 1) :
    Int.log 2 (x * 2 ^ e) = m.log2 + e := by
  have hpos : 0 < x * 2 ^ e :=
    mul_pos (lt_of_lt_of_le (by exact_mod_cast hm) hxm.1) (zpow_pos two_pos e)
  have hlo : (2 : ℝ) ^ ((m.log2 : ℤ) + e) ≤ x * 2 ^ e := by
    rw [zpow_add₀ two_ne_zero, zpow_natCast]
    refine mul_le_mul_of_nonneg_right (le_trans ?_ hxm.1) (by positivity)
    exact_mod_cast Nat.log2_self_le hm.ne'
  have hhi : x * 2 ^ e < (2 : ℝ) ^ ((m.log2 : ℤ) + 1 + e) := by
    rw [zpow_add₀ two_ne_zero, show (m.log2 : ℤ) + 1 = ((m.log2 + 1 : ℕ) : ℤ) by push_cast; ring,
      zpow_natCast]
    refine mul_lt_mul_of_pos_right (lt_of_lt_of_le hxm.2 ?_) (by positivity)
    exact_mod_cast Nat.lt_log2_self
  have h1 := (Int.zpow_le_iff_le_log (b := 2) (by norm_num) hpos).1 (by exact_mod_cast hlo)
  have h2 := (Int.lt_zpow_iff_log_lt (b := 2) (by norm_num) hpos).1 (by exact_mod_cast hhi)
  omega

/-- The target exponent of a mantissa `m` at exponent `e` is the quantum of
every positive magnitude of `m` to `m + 1` units of `2^e`, provided a zero
mantissa comes with the least exponent. -/
theorem quantumExp_eq_targetExponent {m : ℕ} {e : ℤ} {x : ℝ} (hxm : (m : ℝ) ≤ x ∧ x < m + 1)
    (hm : 0 < m ∨ e ≤ -1074) (hpos : 0 < x * 2 ^ e) :
    quantumExp (x * 2 ^ e) = Format.binary64.targetExponent (totalExponent m e) := by
  have hTe : Format.binary64.targetExponent (totalExponent m e) =
      max ((m.log2 : ℤ) + 1 + e - 53) (-1074) := by
    rw [targetExponent_eq]; rfl
  rw [hTe, quantumExp]
  rcases Nat.eq_zero_or_pos m with hm0 | hm'
  · -- with a zero mantissa the magnitude is below `2^e`, whose quantum is the least
    have he := hm.resolve_left (by omega)
    have hlt : x * 2 ^ e < (2 : ℝ) ^ e := by
      have : x < 1 := by simpa [hm0] using hxm.2
      nlinarith [zpow_pos (two_pos : (0 : ℝ) < 2) e]
    have h2 := (Int.lt_zpow_iff_log_lt (b := 2) (by norm_num) hpos).1 (by exact_mod_cast hlt)
    rw [hm0]
    simp only [Nat.log2_zero, Nat.cast_zero]
    omega
  · rw [log_of_mantissa hm' hxm]
    omega

/-- A magnitude goes to nearest in units of any `2^T` that is its quantum
when it is positive, and takes at most `2^53` of them. -/
theorem nearest_of_quantumExp {a : ℝ} {T : ℤ} (ha : 0 ≤ a) (hq : 0 < a → quantumExp a = T) :
    nearest a = roundEven (a / 2 ^ T) * 2 ^ T ∧ roundEven (a / 2 ^ T) ≤ 2 ^ 53 := by
  rcases ha.eq_or_lt with rfl | hpos
  · rw [nearest_zero, zero_div, ← Int.cast_zero, roundEven_intCast]
    norm_num
  · rw [nearest, Nat.cast_ofNat, hq hpos]
    exact ⟨rfl, roundEven_le_of_lt (by rw [← hq hpos]; exact_mod_cast div_quantum_lt a)⟩

/-- **Rounding of doubles.** From a mantissa `m` at exponent `e`, extended by
bits that represent `x` in units of `2^e`, with `e` at or below the target
exponent, `roundWithAccuracy` gives the canonical double of sign `s` whose
magnitude is `x·2^e` rounded to nearest, ties to even. -/
theorem roundWithAccuracy_stands {m : ℕ} {e : ℤ} {acc : Accuracy} {x : ℝ}
    (hx : Represents (.ofMantissaAndAccuracy m acc) x)
    (he : e ≤ Format.binary64.targetExponent (totalExponent m e)) (hm : 0 < m ∨ e ≤ -1074)
    (s : Sign) :
    Stands (roundWithAccuracy .binary64 s m e acc) s (nearest (x * 2 ^ e)) := by
  set T := Format.binary64.targetExponent (totalExponent m e) with hT
  have hTe : T = max ((m.log2 : ℤ) + 1 + e - 53) (-1074) := by rw [hT, targetExponent_eq]; rfl
  have hTk : (2 : ℝ) ^ T = 2 ^ e * 2 ^ (T - e).toNat := by
    rw [← zpow_natCast, ← zpow_add₀ two_ne_zero]
    congr 1
    omega
  have hxm : (m : ℝ) ≤ x ∧ x < m + 1 := by simpa using hx.bounds
  -- a zero mantissa only comes with the least exponent
  have hcase : 0 < m ∨ m = 0 ∧ e ≤ -1074 := by
    rcases Nat.eq_zero_or_pos m with h0 | hpos
    · exact .inr ⟨h0, hm.resolve_left (by omega)⟩
    · exact .inl hpos
  -- after the first shift the mantissa represents the magnitude in units of `2^T`
  have hshifted : Represents (ExtendedMantissa.ofMantissaAndAccuracy m acc >>> (T - e).toNat)
      (x * 2 ^ e / 2 ^ T) := by
    rw [hTk, mul_comm x, mul_div_mul_left _ _ (zpow_ne_zero _ two_ne_zero)]
    exact hx.shiftRight _
  set R := (ExtendedMantissa.ofMantissaAndAccuracy m acc >>> (T - e).toNat).roundedMantissa with hRdef
  have hR : (R : ℤ) = roundEven (x * 2 ^ e / 2 ^ T) := hshifted.roundedMantissa
  have hq : 0 < x * 2 ^ e → quantumExp (x * 2 ^ e) = T := quantumExp_eq_targetExponent hxm hm
  obtain ⟨hround, hle⟩ := nearest_of_quantumExp
    (mul_nonneg (hxm.1.trans' (Nat.cast_nonneg m)) (zpow_pos two_pos e).le) hq
  have hnear : nearest (x * 2 ^ e) = R * 2 ^ T := by
    rw [hround, ← hR]
    simp
  have hR53 : R ≤ 2 ^ 53 := by
    have : (R : ℤ) ≤ 2 ^ 53 := hR ▸ hle
    exact_mod_cast this
  have hlow : 2 ^ 52 ≤ R ∨ T = -1074 := by
    by_cases hTmin : T = -1074
    · exact .inr hTmin
    · -- above the least exponent the mantissa is nonzero, so the magnitude is positive
      have hm : 0 < m := by
        rcases hcase with hm | ⟨hm0, he1074⟩
        · exact hm
        · exfalso
          rw [hTe, hm0] at hTmin
          simp only [Nat.log2_zero, Nat.cast_zero] at hTmin
          omega
      have hpos : 0 < x * 2 ^ e :=
        mul_pos (lt_of_lt_of_le (by exact_mod_cast hm) hxm.1) (zpow_pos two_pos e)
      have h52 := le_div_quantum hpos (by rw [hq hpos]; rw [hTe] at hTmin ⊢; omega)
      rw [hq hpos] at h52
      have : (2 ^ 52 : ℤ) ≤ R := by
        rw [hR]
        exact le_roundEven_of_le (by exact_mod_cast h52)
      exact .inl (by exact_mod_cast this)
  rw [roundWithAccuracy_eq]
  simp only [shiftToTargetExponent_eq acc he]
  rw [hnear]
  exact carry_stands hR53 (by rw [hTe]; omega) hlow s

/-! ## Normalizing -/

theorem log2_mul_two_pow {m : ℕ} (hm : m ≠ 0) (j : ℕ) : (m * 2 ^ j).log2 = m.log2 + j := by
  rw [Nat.log2_eq_iff (Nat.mul_ne_zero hm (by positivity)), pow_add, add_right_comm, pow_add _ _ j]
  exact ⟨Nat.mul_le_mul_right _ (Nat.log2_self_le hm),
    Nat.mul_lt_mul_of_pos_right Nat.lt_log2_self (by positivity)⟩

theorem decreaseExponent_value (m : ℕ) (e t : ℤ) :
    ((decreaseExponent m e t).1 : ℝ) * 2 ^ (decreaseExponent m e t).2 = m * 2 ^ e := by
  simp only [decreaseExponent, Nat.shiftLeft_eq, Nat.cast_mul, Nat.cast_pow, Nat.cast_ofNat]
  rw [← zpow_natCast, mul_assoc, ← zpow_add₀ two_ne_zero]
  congr 2
  omega

theorem roundWithAccuracy_zero (s : Sign) (e : ℤ) :
    roundWithAccuracy .binary64 s 0 e .exact = .zero s := by
  -- every shift of a zero extended mantissa still represents zero
  have hzero : ∀ k : ℕ, (ExtendedMantissa.ofMantissaAndAccuracy 0 .exact >>> k).mantissa = 0 := by
    intro k
    have h := ((represents_exact 0).shiftRight k).floor
    rw [Nat.cast_zero, zero_div, Int.floor_zero] at h
    exact_mod_cast h.symm
  have hround : ∀ k : ℕ,
      (ExtendedMantissa.ofMantissaAndAccuracy 0 .exact >>> k).roundedMantissa = 0 := by
    intro k
    have h := ((represents_exact 0).shiftRight k).roundedMantissa
    rw [Nat.cast_zero, zero_div, ← Int.cast_zero, roundEven_intCast] at h
    exact_mod_cast h
  rw [roundWithAccuracy_eq]
  simp only [shiftToTargetExponent, shiftToExponent, hround, hzero, dite_true]

/-- **Normalizing rounding.** `round` rounds the magnitude `m·2^e` to
nearest, ties to even, whatever the exponent it starts from. -/
theorem round_stands (s : Sign) (m : ℕ) (e : ℤ) :
    Stands (UnpackedFloat.round .binary64 s m e) s (nearest (m * 2 ^ e)) := by
  rcases Nat.eq_zero_or_pos m with rfl | hm
  · have h : UnpackedFloat.round .binary64 s 0 e = .zero s := by
      simp only [UnpackedFloat.round, decreaseExponent, Nat.zero_shiftLeft]
      exact roundWithAccuracy_zero s _
    rw [h, Nat.cast_zero, zero_mul, nearest_zero]
    exact ⟨rfl, rfl⟩
  -- the mantissa is first widened to the target exponent, which keeps its leading bit
  set T := Format.binary64.targetExponent (totalExponent m e)
  set j := (e - T).toNat
  have hd : decreaseExponent m e T = (m * 2 ^ j, e - j) := by
    simp only [decreaseExponent, Nat.shiftLeft_eq]
    rfl
  have htotal : totalExponent (m * 2 ^ j) (e - j) = totalExponent m e := by
    unfold totalExponent
    rw [log2_mul_two_pow hm.ne']
    push_cast
    ring
  have hvalue := decreaseExponent_value m e T
  rw [hd] at hvalue
  have hround := roundWithAccuracy_stands (represents_exact (m * 2 ^ j))
    (by rw [htotal]; omega) (.inl (Nat.mul_pos hm (by positivity))) s
  rw [hvalue] at hround
  have hr : UnpackedFloat.round .binary64 s m e = roundWithAccuracy .binary64 s (m * 2 ^ j) (e - j) .exact := by
    show roundWithAccuracy .binary64 s (decreaseExponent m e T).1 (decreaseExponent m e T).2 .exact = _
    rw [hd]
  rw [hr]
  exact hround

/-- `u` is what the real `v` rounds to, before any overflow: a double of
`v`'s sign whose magnitude is `|v|` rounded to nearest, ties to even, and a
zero of either sign for zero. -/
def RoundsTo (u : UnpackedFloat) (v : ℝ) : Prop :=
  (0 < v → Stands u .positive (nearest v)) ∧ (v < 0 → Stands u .negative (nearest (-v))) ∧
    (v = 0 → ∃ s, u = .zero s)

theorem normalize_roundsTo (M E : ℤ) (zs : Sign) :
    RoundsTo (UnpackedFloat.normalize .binary64 M E zs) (M * 2 ^ E) := by
  have hpow : (0 : ℝ) < 2 ^ E := zpow_pos two_pos E
  unfold UnpackedFloat.normalize
  rcases lt_trichotomy M 0 with hM | rfl | hM
  · rw [Int.compare_eq_lt.2 hM]
    have hv : (M : ℝ) * 2 ^ E < 0 := mul_neg_of_neg_of_pos (by exact_mod_cast hM) hpow
    have hround := round_stands .negative (-M).toNat E
    have hcast : (((-M).toNat : ℕ) : ℝ) = -M := by
      rw [← Int.cast_natCast, Int.toNat_of_nonneg (by omega), Int.cast_neg]
    rw [hcast, neg_mul] at hround
    exact ⟨fun h => absurd h (not_lt.2 hv.le), fun _ => hround, fun h => absurd h hv.ne⟩
  · rw [show compare (0 : ℤ) 0 = .eq from rfl]
    exact ⟨fun h => by simp at h, fun h => by simp at h, fun _ => ⟨zs, rfl⟩⟩
  · rw [Int.compare_eq_gt.2 hM]
    have hv : 0 < (M : ℝ) * 2 ^ E := mul_pos (by exact_mod_cast hM) hpow
    have hround := round_stands .positive M.toNat E
    have hcast : ((M.toNat : ℕ) : ℝ) = M := by rw [← Int.cast_natCast, Int.toNat_of_nonneg hM.le]
    rw [hcast] at hround
    exact ⟨fun _ => hround, fun h => absurd h (not_lt.2 hv.le), fun h => absurd h hv.ne'⟩

end Doubles

end Subsurface
