import Mathlib
import Subsurface.Proofs.Numeric.Doubles
import Subsurface.Proofs.Numeric.Rounding
/-!
The values of doubles, and where their arithmetic takes them.

Read as extended reals (`valueE`), the doubles that are numbers are ordered
as their values: `x ≤ y` exactly when `valueE x ≤ valueE y`, an infinity at
each end and both zeros at zero (`le_iff_valueE`). Packing a rounded double
keeps it, or overflows it to the infinity of its sign from `2^1024` on, so a
subtraction, a division or a multiplication lands where `roundE` puts the
exact difference, quotient or product: rounded to nearest, ties to even, and
overflowed. As `roundE` is monotone, so are these operations in their first
operand; and the conversion to `UInt64`, a truncation clamped to its range,
is monotone too.
-/

open Float.Model UnpackedFloat

namespace Subsurface

namespace Doubles

/-! ## Where rounded values land -/

/-- A magnitude as a double holds it: infinite from `2^1024` on. -/
noncomputable def bounded (a : ℝ) : EReal := if ((2 : ℕ) : ℝ) ^ 1024 ≤ a then ⊤ else a

/-- A sign applied to an extended real. -/
noncomputable def signed : Sign → EReal → EReal
  | .negative, x => -x
  | .positive, x => x

/-- Where a real lands as a double: its magnitude rounded to nearest, ties
to even, and overflowed from `2^1024` on, under its sign. -/
noncomputable def roundReal (v : ℝ) : EReal :=
  if 0 ≤ v then bounded (nearest v) else -bounded (nearest (-v))

/-- Where an extended real lands as a double; the infinities stay. -/
noncomputable def roundE : EReal → EReal
  | ⊥ => ⊥
  | ⊤ => ⊤
  | (v : ℝ) => roundReal v

theorem bounded_mono : Monotone bounded := by
  intro a b hab
  unfold bounded
  split_ifs with ha hb hb
  · exact le_rfl
  · exact absurd (ha.trans hab) hb
  · exact le_top
  · exact EReal.coe_le_coe_iff.2 hab

theorem bounded_nonneg {a : ℝ} (ha : 0 ≤ a) : 0 ≤ bounded a := by
  unfold bounded
  split_ifs
  · exact le_top
  · exact EReal.coe_nonneg.2 ha

theorem roundReal_mono : Monotone roundReal := by
  intro v w hvw
  unfold roundReal
  split_ifs with hv hw hw
  · exact bounded_mono (nearest_mono hv hvw)
  · exact absurd (hv.trans hvw) hw
  · -- a negative value lands at or below zero, a nonnegative one at or above
    calc -bounded (nearest (-v)) ≤ -0 :=
          EReal.neg_le_neg_iff.2 (bounded_nonneg (nearest_nonneg (by linarith)))
      _ = 0 := neg_zero
      _ ≤ bounded (nearest w) := bounded_nonneg (nearest_nonneg hw)
  · exact EReal.neg_le_neg_iff.2 (bounded_mono (nearest_mono (by linarith) (by linarith)))

theorem roundReal_zero : roundReal 0 = 0 := by
  rw [roundReal, if_pos le_rfl, nearest_zero, bounded, Nat.cast_ofNat, if_neg (by norm_num)]
  rfl

theorem roundE_mono : Monotone roundE := by
  intro x y hxy
  induction x using EReal.rec with
  | bot => exact bot_le
  | top => rw [top_le_iff.1 hxy]
  | coe v =>
    induction y using EReal.rec with
    | bot => exact absurd hxy (by simp)
    | top => exact le_top
    | coe w => exact roundReal_mono (EReal.coe_le_coe_iff.1 hxy)

theorem roundE_coe (v : ℝ) : roundE v = roundReal v := rfl

theorem signed_negative_nonpos {v : EReal} (hv : 0 ≤ v) : signed .negative v ≤ 0 :=
  EReal.neg_le_zero.2 hv

/-! ## Values of doubles -/

/-- The extended real an unpacked double stands for; NaN is put at zero. -/
noncomputable def valueE : UnpackedFloat → EReal
  | .infinity s => signed s ⊤
  | .notANumber => 0
  | .zero _ => 0
  | .finite s m e _ => signed s ((m * ((2 : ℕ) : ℝ) ^ e : ℝ) : EReal)

/-- The unpacked doubles encodings give: each finite one canonical, within
the encodable exponents. -/
def Encoded : UnpackedFloat → Prop
  | .finite _ m e _ => Canonical m e ∧ e ≤ 971
  | _ => True

theorem exponentBias_binary64 : Format.binary64.exponentBias = 1023 := rfl

theorem toNat_implicit (mv : BitVec 52) : (1#1 ++ mv).toNat = 2 ^ 52 + mv.toNat := by
  rw [BitVec.toNat_append, ← Nat.shiftLeft_add_eq_or_of_lt mv.isLt]
  simp [Nat.shiftLeft_eq]

theorem encoded_unpack (b : BitVec 64) : Encoded (UnpackedFloat.unpack .binary64 b) := by
  have hev : (@unpackExponent .binary64 b).toNat < 2048 := (unpackExponent _).isLt
  have hmv : (@unpackMantissa .binary64 b).toNat < 2 ^ 52 := (unpackMantissa _).isLt
  unfold UnpackedFloat.unpack
  dsimp only
  split
  · split <;> trivial
  · rename_i hinf
    split
    · rename_i hsub
      split
      · trivial
      · -- a subnormal: below `2^52` at the least exponent
        have h0 : (@unpackExponent .binary64 b).toNat = 0 := by rw [hsub]; rfl
        refine ⟨⟨by omega, ?_, .inr ?_⟩, ?_⟩ <;>
          simp only [exponentBias_binary64, h0] <;> norm_num
    · rename_i hsub
      -- a normal number: the implicit bit on, the exponent field neither zero nor all ones
      have h1 : (@unpackExponent .binary64 b).toNat ≠ 2047 := fun h =>
        hinf (BitVec.eq_of_toNat_eq (by rw [h]; rfl))
      have h2 : (@unpackExponent .binary64 b).toNat ≠ 0 := fun h =>
        hsub (BitVec.eq_of_toNat_eq (by rw [h]; rfl))
      have hm := toNat_implicit (@unpackMantissa .binary64 b)
      refine ⟨⟨?_, ?_, .inl ?_⟩, ?_⟩
      · change (1#1 ++ @unpackMantissa .binary64 b).toNat < 2 ^ 53
        omega
      · simp only [exponentBias_binary64]
        omega
      · change 2 ^ 52 ≤ (1#1 ++ @unpackMantissa .binary64 b).toNat
        omega
      · simp only [exponentBias_binary64]
        omega

/-! ## Packing -/

/-- An unpacked double as it reads after packing into an encoding. -/
def repack (u : UnpackedFloat) : UnpackedFloat := UnpackedFloat.unpack .binary64 (pack .binary64 u)

theorem pack_finite_eq (s : Sign) (m : ℕ) (e : ℤ) (h : 0 < m) :
    pack .binary64 (.finite s m e h) =
      if 2 ^ 11 ≤ (e + 1023 + 52).toNat + 1 then packedInfinity .binary64 s
      else if m.log2 + 1 = 1 + 52 then
        packComponents .binary64 s (BitVec.ofNat 11 (e + 1023 + 52).toNat) (BitVec.ofNat 52 m)
      else packComponents .binary64 s 0#11 (BitVec.ofNat 52 m) := rfl

theorem repack_zero (s : Sign) : repack (.zero s) = .zero s := unpack_packedZero

theorem repack_notANumber : repack .notANumber = .notANumber := unpack_packedNaN

theorem repack_infinity (s : Sign) : repack (.infinity s) = .infinity s := by
  simp [repack, UnpackedFloat.pack, packedInfinity, UnpackedFloat.unpack, Sign.ofBitVec_toBitVec]

/-- A canonical finite double of encodable exponent packs and unpacks to
itself. -/
theorem repack_finite {s : Sign} {m : ℕ} {e : ℤ} {h : 0 < m} (hc : Canonical m e) (he : e ≤ 971) :
    repack (.finite s m e h) = .finite s m e h := by
  obtain ⟨hm53, hemin, hlow⟩ := hc
  have hbo : ¬ 2 ^ 11 ≤ (e + 1023 + 52).toNat + 1 := by omega
  rw [repack, pack_finite_eq, if_neg hbo]
  by_cases h52 : 2 ^ 52 ≤ m
  · -- a normal number: the exponent field is the biased exponent, the implicit bit dropped
    have hlog : m.log2 = 52 := (Nat.log2_eq_iff h.ne').2 ⟨h52, hm53⟩
    have hbe : (BitVec.ofNat 11 (e + 1023 + 52).toNat).toNat = (e + 1075).toNat := by
      rw [BitVec.toNat_ofNat]
      omega
    have hinf : BitVec.ofNat 11 (e + 1023 + 52).toNat ≠ -1#11 := fun heq => by
      have := congrArg BitVec.toNat heq
      rw [hbe] at this
      exact absurd this (by rw [show (-1#11).toNat = 2047 from rfl]; omega)
    have hz : BitVec.ofNat 11 (e + 1023 + 52).toNat ≠ 0#11 := fun heq => by
      have := congrArg BitVec.toNat heq
      rw [hbe] at this
      exact absurd this (by rw [show (0#11).toNat = 0 from rfl]; omega)
    rw [if_pos (by omega)]
    simp only [UnpackedFloat.unpack, unpackMantissa_packComponents, unpackExponent_packComponents,
      unpackSign_packComponents, Sign.ofBitVec_toBitVec, if_neg hinf, if_neg hz,
      UnpackedFloat.finite.injEq, true_and]
    refine ⟨?_, ?_⟩
    · rw [toNat_implicit, BitVec.toNat_ofNat]
      omega
    · rw [hbe, exponentBias_binary64]
      omega
  · -- a subnormal: the exponent field is zero
    have hm52 : m < 2 ^ 52 := by omega
    obtain rfl : e = -1074 := hlow.resolve_left h52
    have hlog : m.log2 < 52 := (Nat.log2_lt h.ne').2 hm52
    have hmv : (BitVec.ofNat 52 m).toNat = m := by rw [BitVec.toNat_ofNat, Nat.mod_eq_of_lt hm52]
    have hz : BitVec.ofNat 52 m ≠ 0#52 := fun heq => by
      have := congrArg BitVec.toNat heq
      rw [hmv] at this
      exact absurd this (by rw [show (0#52).toNat = 0 from rfl]; omega)
    rw [if_neg (by omega)]
    simp only [UnpackedFloat.unpack, unpackMantissa_packComponents, unpackExponent_packComponents,
      unpackSign_packComponents, Sign.ofBitVec_toBitVec, hz, dite_false]
    rw [if_neg (by decide), if_pos trivial, UnpackedFloat.finite.injEq]
    refine ⟨rfl, hmv, ?_⟩
    rw [exponentBias_binary64]
    rfl

theorem repack_overflow {s : Sign} {m : ℕ} {e : ℤ} {h : 0 < m} (he : 971 < e) :
    repack (.finite s m e h) = .infinity s := by
  rw [repack, pack_finite_eq, if_pos (by omega)]
  exact repack_infinity s

/-! ## Reading rounded doubles -/

/-- A sign applied to a real. -/
def signReal : Sign → ℝ → ℝ
  | .negative, x => -x
  | .positive, x => x

theorem signed_coe (s : Sign) (x : ℝ) : signed s x = (signReal s x : EReal) := by
  cases s <;> rfl

/-- A canonical magnitude is below `2^1024` exactly when its exponent is
encodable. -/
theorem value_lt_iff {m : ℕ} {e : ℤ} (hc : Canonical m e) :
    (m : ℝ) * 2 ^ e < 2 ^ 1024 ↔ e ≤ 971 := by
  obtain ⟨hm53, hemin, hlow⟩ := hc
  constructor
  · intro hlt
    by_contra hgt
    -- past the least exponent the mantissa has its 53 bits
    have h52 : (2 : ℝ) ^ (52 : ℤ) ≤ m := by
      rw [show (52 : ℤ) = ((52 : ℕ) : ℤ) from rfl, zpow_natCast]
      exact_mod_cast hlow.resolve_right (by omega)
    have : (2 : ℝ) ^ (1024 : ℤ) ≤ m * 2 ^ e :=
      calc (2 : ℝ) ^ (1024 : ℤ) = 2 ^ (52 : ℤ) * 2 ^ (972 : ℤ) := by
            rw [← zpow_add₀ two_ne_zero]; norm_num
        _ ≤ m * 2 ^ e := mul_le_mul h52 (zpow_le_zpow_right₀ (by norm_num) (by omega))
            (by positivity) (by positivity)
    exact absurd hlt (not_lt.2 (by exact_mod_cast this))
  · intro he
    have h53 : (m : ℝ) < 2 ^ (53 : ℤ) := by
      rw [show (53 : ℤ) = ((53 : ℕ) : ℤ) from rfl, zpow_natCast]
      exact_mod_cast hm53
    have : (m : ℝ) * 2 ^ e < 2 ^ (1024 : ℤ) :=
      calc (m : ℝ) * 2 ^ e < 2 ^ (53 : ℤ) * 2 ^ e := mul_lt_mul_of_pos_right h53 (by positivity)
        _ ≤ 2 ^ (53 : ℤ) * 2 ^ (971 : ℤ) := mul_le_mul_of_nonneg_left
            (zpow_le_zpow_right₀ (by norm_num) he) (by positivity)
        _ = 2 ^ (1024 : ℤ) := by rw [← zpow_add₀ two_ne_zero]; norm_num
    exact_mod_cast this

theorem nearest_canonical {m : ℕ} {e : ℤ} (hc : Canonical m e) (hm : 0 < m) :
    nearest (m * 2 ^ e) = m * 2 ^ e := by
  obtain ⟨hm53, hemin, hlow⟩ := hc
  have hpos : (0 : ℝ) < m * 2 ^ e := by positivity
  -- the quantum of a canonical magnitude is its exponent
  have hq : quantumExp (m * 2 ^ e) = e := by
    have hlog : Int.log 2 ((m : ℝ) * 2 ^ e) = m.log2 + e := by
      have hlo : (2 : ℝ) ^ ((m.log2 : ℤ) + e) ≤ m * 2 ^ e := by
        rw [zpow_add₀ two_ne_zero, zpow_natCast]
        exact mul_le_mul_of_nonneg_right (by exact_mod_cast Nat.log2_self_le hm.ne') (by positivity)
      have hhi : (m : ℝ) * 2 ^ e < 2 ^ ((m.log2 : ℤ) + 1 + e) := by
        rw [zpow_add₀ two_ne_zero, show (m.log2 : ℤ) + 1 = ((m.log2 + 1 : ℕ) : ℤ) by push_cast; ring,
          zpow_natCast]
        exact mul_lt_mul_of_pos_right (by exact_mod_cast Nat.lt_log2_self) (by positivity)
      have h1 := (Int.zpow_le_iff_le_log (b := 2) (by norm_num) hpos).1 (by exact_mod_cast hlo)
      have h2 := (Int.lt_zpow_iff_log_lt (b := 2) (by norm_num) hpos).1 (by exact_mod_cast hhi)
      omega
    have hlog53 : m.log2 < 53 := (Nat.log2_lt hm.ne').2 hm53
    rw [quantumExp, hlog]
    rcases hlow with h52 | hsub
    · have : 52 ≤ m.log2 := (Nat.le_log2 hm.ne').2 h52
      omega
    · omega
  rw [nearest, Nat.cast_ofNat, hq, mul_div_cancel_right₀ _ (zpow_ne_zero _ two_ne_zero)]
  rw [show (m : ℝ) = ((m : ℤ) : ℝ) from rfl, roundEven_intCast]

theorem roundReal_signReal (s : Sign) {a : ℝ} (ha : 0 ≤ a) :
    roundReal (signReal s a) = signed s (bounded (nearest a)) := by
  cases s with
  | positive => exact if_pos ha
  | negative =>
    rcases ha.eq_or_lt with rfl | hpos
    · show roundReal (-0) = -bounded (nearest 0)
      rw [neg_zero, roundReal_zero, nearest_zero, bounded, Nat.cast_ofNat, if_neg (by norm_num), EReal.coe_zero,
        neg_zero]
    · show roundReal (-a) = -bounded (nearest a)
      rw [roundReal, if_neg (by linarith), neg_neg]

/-- A rounded double reads, after packing, as its magnitude overflowed from
`2^1024` on, under its sign; it is not NaN. -/
theorem valueE_repack {u : UnpackedFloat} {s : Sign} {a : ℝ} (h : Stands u s a) :
    valueE (repack u) = signed s (bounded a) ∧ (repack u).isNaN = false := by
  cases u with
  | zero t =>
    obtain ⟨rfl, rfl⟩ := h
    rw [repack_zero, bounded, Nat.cast_ofNat, if_neg (by norm_num)]
    cases t <;> exact ⟨by simp [valueE, signed], rfl⟩
  | finite t m e hm =>
    obtain ⟨rfl, hc, rfl⟩ := h
    by_cases he : e ≤ 971
    · rw [repack_finite hc he, bounded, Nat.cast_ofNat, if_neg (not_le.2 ((value_lt_iff hc).2 he))]
      exact ⟨rfl, rfl⟩
    · rw [repack_overflow (not_le.1 he), bounded, Nat.cast_ofNat,
        if_pos (not_lt.1 fun hlt => he ((value_lt_iff hc).1 hlt))]
      exact ⟨rfl, rfl⟩
  | infinity t => exact absurd h id
  | notANumber => exact absurd h id

/-- A double that a real rounds to reads, after packing, where the real
lands. -/
theorem valueE_repack_of_roundsTo {u : UnpackedFloat} {v : ℝ} (h : RoundsTo u v) :
    valueE (repack u) = roundReal v ∧ (repack u).isNaN = false := by
  obtain ⟨hpos, hneg, hzero⟩ := h
  rcases lt_trichotomy v 0 with hv | rfl | hv
  · obtain ⟨hval, hnan⟩ := valueE_repack (hneg hv)
    refine ⟨?_, hnan⟩
    rw [hval, roundReal, if_neg (not_le.2 hv)]
    rfl
  · obtain ⟨s, rfl⟩ := hzero rfl
    rw [repack_zero, roundReal_zero]
    exact ⟨rfl, rfl⟩
  · obtain ⟨hval, hnan⟩ := valueE_repack (hpos hv)
    exact ⟨by rw [hval, roundReal, if_pos hv.le]; rfl, hnan⟩

/-! ## The order of values -/

theorem valueE_finite (s : Sign) (m : ℕ) (e : ℤ) (h : 0 < m) :
    valueE (.finite s m e h) = (signReal s (m * 2 ^ e) : EReal) := signed_coe s _

/-- Of two canonical magnitudes, the one with the larger exponent, or the
same exponent and the larger mantissa, is the larger. -/
theorem value_lt_of_lex {m m' : ℕ} {e e' : ℤ} (hc : Canonical m e) (hc' : Canonical m' e')
    (h : e < e' ∨ e = e' ∧ m < m') : (m : ℝ) * 2 ^ e < m' * 2 ^ e' := by
  rcases h with hlt | ⟨rfl, hm⟩
  · -- past the least exponent `m'` has its 53 bits, and `m` at most 53 at a lower exponent
    have h52 : (2 : ℝ) ^ (52 : ℤ) ≤ m' := by
      rw [show (52 : ℤ) = ((52 : ℕ) : ℤ) from rfl, zpow_natCast]
      exact_mod_cast hc'.2.2.resolve_right (by have := hc.2.1; omega)
    have h53 : (m : ℝ) < 2 ^ (53 : ℤ) := by
      rw [show (53 : ℤ) = ((53 : ℕ) : ℤ) from rfl, zpow_natCast]
      exact_mod_cast hc.1
    calc (m : ℝ) * 2 ^ e < 2 ^ (53 : ℤ) * 2 ^ e := mul_lt_mul_of_pos_right h53 (by positivity)
      _ = 2 ^ (e + 53) := by rw [← zpow_add₀ two_ne_zero, add_comm]
      _ ≤ 2 ^ (e' + 52) := zpow_le_zpow_right₀ (by norm_num) (by omega)
      _ = 2 ^ (52 : ℤ) * 2 ^ e' := by rw [← zpow_add₀ two_ne_zero, add_comm]
      _ ≤ m' * 2 ^ e' := mul_le_mul_of_nonneg_right h52 (by positivity)
  · exact mul_lt_mul_of_pos_right (by exact_mod_cast hm) (by positivity)

theorem signReal_neg_lt {a b : ℝ} (ha : 0 < a) (hb : 0 ≤ b) :
    (signReal .negative a : EReal) < signReal .positive b :=
  EReal.coe_lt_coe_iff.2 (show -a < b by linarith)

/-- Places and values are ordered alike: a double at an earlier place has
the smaller value. -/
theorem valueE_lt_of_placeOf_lt {u v : UnpackedFloat} (hu : Encoded u) (hv : Encoded v)
    (hun : u.isNaN = false) (hvn : v.isNaN = false) (h : placeOf u < placeOf v) :
    valueE u < valueE v := by
  -- past the kinds, only two finite numbers of one sign compare by their fields
  cases u with
  | notANumber => cases hun
  | infinity s =>
    cases v with
    | notANumber => cases hvn
    | infinity t => cases s <;> cases t <;> simp_all [placeOf, Prod.Lex.toLex_lt_toLex, valueE, signed]
    | zero t => cases s <;> simp_all [placeOf, Prod.Lex.toLex_lt_toLex, valueE, signed]
    | finite t m e hm =>
      rw [valueE_finite]
      cases s <;> cases t <;> simp_all [placeOf, Prod.Lex.toLex_lt_toLex, valueE, signed]
  | zero s =>
    cases v with
    | notANumber => cases hvn
    | infinity t => cases t <;> simp_all [placeOf, Prod.Lex.toLex_lt_toLex, valueE, signed]
    | zero t => simp [placeOf] at h
    | finite t m e hm =>
      rw [valueE_finite]
      cases t
      · simp [placeOf, Prod.Lex.toLex_lt_toLex] at h
      · simp_all [placeOf, Prod.Lex.toLex_lt_toLex, valueE, signReal]
        positivity
  | finite s m e hm =>
    cases v with
    | notANumber => cases hvn
    | infinity t =>
      rw [valueE_finite]
      cases s <;> cases t <;> simp_all [placeOf, Prod.Lex.toLex_lt_toLex, valueE, signed]
    | zero t =>
      rw [valueE_finite]
      cases s
      · simp_all [placeOf, Prod.Lex.toLex_lt_toLex, valueE, signReal]
        positivity
      · simp [placeOf, Prod.Lex.toLex_lt_toLex] at h
    | finite t m' e' hm' =>
      rw [valueE_finite, valueE_finite]
      cases s <;> cases t
      · -- two negative numbers: the later place has the smaller magnitude
        simp only [placeOf, Prod.Lex.toLex_lt_toLex, neg_lt_neg_iff, neg_inj, Nat.cast_lt] at h
        refine EReal.coe_lt_coe_iff.2 (neg_lt_neg (value_lt_of_lex hv.1 hu.1 ?_))
        omega
      · exact signReal_neg_lt (by positivity) (by positivity)
      · simp [placeOf, Prod.Lex.toLex_lt_toLex] at h
      · simp only [placeOf, Prod.Lex.toLex_lt_toLex, Nat.cast_lt] at h
        exact EReal.coe_lt_coe_iff.2 (value_lt_of_lex hu.1 hv.1 (by omega))

theorem valueE_eq_of_placeOf_eq {u v : UnpackedFloat} (hun : u.isNaN = false)
    (hvn : v.isNaN = false) (h : placeOf u = placeOf v) : valueE u = valueE v := by
  cases u with
  | notANumber => cases hun
  | infinity s =>
    cases v with
    | notANumber => cases hvn
    | infinity t => cases s <;> cases t <;> simp_all [placeOf]
    | zero t => cases s <;> simp_all [placeOf]
    | finite t m e hm => cases s <;> cases t <;> simp_all [placeOf]
  | zero s =>
    cases v with
    | notANumber => cases hvn
    | infinity t => cases t <;> simp_all [placeOf]
    | zero t => rfl
    | finite t m e hm => cases t <;> simp_all [placeOf]
  | finite s m e hm =>
    cases v with
    | notANumber => cases hvn
    | infinity t => cases s <;> cases t <;> simp_all [placeOf]
    | zero t => cases s <;> simp_all [placeOf]
    | finite t m' e' hm' => cases s <;> cases t <;> simp_all [placeOf]

theorem encoded_toModel (x : Float) : Encoded x.toModel.unpack := encoded_unpack _

/-- **The order of doubles.** Two doubles that are numbers compare as their
values. -/
theorem le_iff_valueE {x y : Float} (hx : x.isNaN = false) (hy : y.isNaN = false) :
    x ≤ y ↔ valueE x.toModel.unpack ≤ valueE y.toModel.unpack := by
  rw [le_iff hx hy]
  constructor
  · intro h
    rcases h.lt_or_eq with hlt | heq
    · exact (valueE_lt_of_placeOf_lt (encoded_toModel x) (encoded_toModel y) hx hy hlt).le
    · exact (valueE_eq_of_placeOf_eq hx hy heq).le
  · intro h
    by_contra hlt
    exact absurd h (not_le.2 (valueE_lt_of_placeOf_lt (encoded_toModel y) (encoded_toModel x) hy hx
      (not_le.1 hlt)))

/-! ## Subtraction -/

theorem roundReal_encoded {m : ℕ} {e : ℤ} (hc : Canonical m e) (he : e ≤ 971) (hm : 0 < m) (s : Sign) :
    roundReal (signReal s (m * 2 ^ e)) = signed s ((m * 2 ^ e : ℝ) : EReal) := by
  rw [roundReal_signReal s (by positivity), nearest_canonical hc hm, bounded, Nat.cast_ofNat,
    if_neg (not_le.2 ((value_lt_iff hc).2 he))]

theorem apply_decreaseExponent (s : Sign) (m : ℕ) {e E : ℤ} (hE : E ≤ e) :
    ((s.apply (decreaseExponent m e E).1 : ℤ) : ℝ) * 2 ^ E = signReal s (m * 2 ^ e) := by
  have hv := decreaseExponent_value m e E
  have h2 : (decreaseExponent m e E).2 = E := by
    show e - ((e - E).toNat : ℤ) = E
    omega
  rw [h2] at hv
  cases s
  · show ((-((decreaseExponent m e E).1 : ℤ) : ℤ) : ℝ) * 2 ^ E = -(m * 2 ^ e)
    push_cast
    rw [neg_mul, hv]
  · show (((decreaseExponent m e E).1 : ℤ) : ℝ) * 2 ^ E = m * 2 ^ e
    push_cast
    exact hv

theorem neg_signReal (s : Sign) (a : ℝ) : -signReal s a = signReal (-s) a := by
  cases s
  · exact neg_neg a
  · rfl

/-- **Subtraction** of two doubles lands where the exact difference of
their values does, unless it is NaN. -/
theorem valueE_repack_sub {u v : UnpackedFloat} (hu : Encoded u) (hv : Encoded v)
    (h : (repack (UnpackedFloat.sub .binary64 u v)).isNaN = false) :
    valueE (repack (UnpackedFloat.sub .binary64 u v)) = roundE (valueE u - valueE v) := by
  cases u with
  | notANumber => cases v <;> simp [UnpackedFloat.sub, UnpackedFloat.isNaN, repack_notANumber] at h
  | infinity s =>
    cases v with
    | notANumber => simp [UnpackedFloat.sub, UnpackedFloat.isNaN, repack_notANumber] at h
    | infinity t =>
      -- infinities of opposite signs subtract to the first, of one sign to NaN
      cases s <;> cases t
      · rw [show UnpackedFloat.sub .binary64 (.infinity .negative) (.infinity .negative) = .notANumber
          from rfl, repack_notANumber] at h
        cases h
      · rw [show UnpackedFloat.sub .binary64 (.infinity .negative) (.infinity .positive) =
          .infinity .negative from rfl, repack_infinity]
        show -⊤ = roundE (-⊤ - ⊤)
        rw [EReal.neg_top, EReal.bot_sub]
        rfl
      · rw [show UnpackedFloat.sub .binary64 (.infinity .positive) (.infinity .negative) =
          .infinity .positive from rfl, repack_infinity]
        show ⊤ = roundE (⊤ - -⊤)
        rw [EReal.neg_top, EReal.top_sub_bot]
        rfl
      · rw [show UnpackedFloat.sub .binary64 (.infinity .positive) (.infinity .positive) = .notANumber
          from rfl, repack_notANumber] at h
        cases h
    | zero t => cases s <;> simp [UnpackedFloat.sub, repack_infinity, valueE, signed] <;> rfl
    | finite t m e hm =>
      rw [valueE_finite]
      cases s <;> simp [UnpackedFloat.sub, repack_infinity, valueE, signed] <;> rfl
  | zero s =>
    cases v with
    | notANumber => simp [UnpackedFloat.sub, UnpackedFloat.isNaN, repack_notANumber] at h
    | infinity t => cases t <;> simp [UnpackedFloat.sub, repack_infinity, valueE, signed] <;> rfl
    | zero t =>
      have hz : ∃ s', UnpackedFloat.sub .binary64 (.zero s) (.zero t) = .zero s' := by
        simp only [UnpackedFloat.sub]
        split <;> exact ⟨_, rfl⟩
      obtain ⟨s', hs'⟩ := hz
      rw [hs', repack_zero]
      show (0 : EReal) = roundE (0 - 0)
      rw [sub_zero]
      exact roundReal_zero.symm
    | finite t m e hm =>
      -- zero minus a number is the number negated, exactly
      show valueE (repack (.finite (-t) m e hm)) = _
      rw [repack_finite hv.1 hv.2, valueE_finite, valueE_finite,
        show valueE (.zero s) = ((0 : ℝ) : EReal) from rfl, ← EReal.coe_sub, zero_sub, roundE_coe,
        neg_signReal, roundReal_encoded hv.1 hv.2 hm, signed_coe]
  | finite s m e hm =>
    cases v with
    | notANumber => simp [UnpackedFloat.sub, UnpackedFloat.isNaN, repack_notANumber] at h
    | infinity t =>
      rw [valueE_finite]
      cases t <;> simp [UnpackedFloat.sub, repack_infinity, valueE, signed] <;> rfl
    | zero t =>
      show valueE (repack (.finite s m e hm)) = _
      rw [repack_finite hu.1 hu.2, valueE_finite, show valueE (.zero t) = ((0 : ℝ) : EReal) from rfl,
        ← EReal.coe_sub, sub_zero, roundE_coe, roundReal_encoded hu.1 hu.2 hm, signed_coe]
    | finite t m' e' hm' =>
      -- two numbers: both mantissas at the smaller exponent, the difference normalized
      have hround := valueE_repack_of_roundsTo (normalize_roundsTo
        (s.apply (decreaseExponent m e (min e e')).1 - t.apply (decreaseExponent m' e' (min e e')).1)
        (min e e') .positive)
      rw [Int.cast_sub, sub_mul, apply_decreaseExponent s m (min_le_left e e'),
        apply_decreaseExponent t m' (min_le_right e e')] at hround
      rw [valueE_finite, valueE_finite, ← EReal.coe_sub, roundE_coe, ← hround.1]
      rfl

/-! ## Division and multiplication -/

/-- The quotient of two finite doubles is their exact quotient rounded:
`divCore` shifts the dividend far enough for 53 bits of quotient, or to the
least exponent, and its remainder gives the round and sticky bits. -/
theorem div_finite_stands (s t : Sign) {m₁ m₂ : ℕ} (e₁ e₂ : ℤ) (h₁ : 0 < m₁) (h₂ : 0 < m₂) :
    Stands (UnpackedFloat.div .binary64 (.finite s m₁ e₁ h₁) (.finite t m₂ e₂ h₂)) (s / t)
      (nearest (m₁ * 2 ^ e₁ / (m₂ * 2 ^ e₂))) := by
  set B := Format.binary64.targetExponent (totalExponent m₁ e₁ - totalExponent m₂ e₂) with hB
  set T := min (e₁ - e₂) B with hT
  set sh := (e₁ - e₂ - T).toNat with hsh
  have hdiv : UnpackedFloat.div .binary64 (.finite s m₁ e₁ h₁) (.finite t m₂ e₂ h₂) =
      roundWithAccuracy .binary64 (s / t) (m₁ * 2 ^ sh / m₂) T
        (accuracyOfFraction (m₁ * 2 ^ sh % m₂) m₂) := by
    show roundWithAccuracy .binary64 (s / t) (m₁ <<< sh / m₂) T
      (accuracyOfFraction (m₁ <<< sh % m₂) m₂) = _
    rw [Nat.shiftLeft_eq]
  have hm₂ : (0 : ℝ) < m₂ := by exact_mod_cast h₂
  have hBval : B = max ((m₁.log2 : ℤ) + 1 + e₁ - (m₂.log2 + 1 + e₂) - 53) (-1074) := by
    rw [hB, targetExponent_eq]
    rfl
  -- the quotient and the remainder's bits represent the exact quotient in units of `2^T`
  have hrep : Represents (.ofMantissaAndAccuracy (m₁ * 2 ^ sh / m₂)
      (accuracyOfFraction (m₁ * 2 ^ sh % m₂) m₂)) ((m₁ * 2 ^ sh : ℕ) / m₂ : ℝ) := by
    have h := represents_fraction (m₁ * 2 ^ sh / m₂) h₂ (Nat.mod_lt (m₁ * 2 ^ sh) h₂)
    have hsplit : ((m₁ * 2 ^ sh : ℕ) : ℝ) = ((m₁ * 2 ^ sh / m₂ : ℕ) : ℝ) * m₂ +
        ((m₁ * 2 ^ sh % m₂ : ℕ) : ℝ) := by
      exact_mod_cast (Nat.div_add_mod' (m₁ * 2 ^ sh) m₂).symm
    rwa [hsplit, add_div, mul_div_cancel_right₀ _ hm₂.ne']
  have hvalue : ((m₁ * 2 ^ sh : ℕ) / m₂ : ℝ) * 2 ^ T = m₁ * 2 ^ e₁ / (m₂ * 2 ^ e₂) := by
    have hexp : (2 : ℝ) ^ e₁ = 2 ^ sh * 2 ^ T * 2 ^ e₂ := by
      rw [← zpow_natCast, ← zpow_add₀ two_ne_zero, ← zpow_add₀ two_ne_zero]
      congr 1
      omega
    rw [hexp]
    push_cast
    field_simp
  -- unless it reaches the least exponent, the quotient has its 53 bits
  have hfull : -1074 < T → 2 ^ 52 ≤ m₁ * 2 ^ sh / m₂ := by
    intro hTmin
    have hBe : B = (m₁.log2 : ℤ) + 1 + e₁ - (m₂.log2 + 1 + e₂) - 53 := by omega
    have hle : m₂.log2 + 53 ≤ m₁.log2 + sh := by omega
    rw [Nat.le_div_iff_mul_le h₂]
    calc 2 ^ 52 * m₂ ≤ 2 ^ 52 * 2 ^ (m₂.log2 + 1) := Nat.mul_le_mul_left _ Nat.lt_log2_self.le
      _ = 2 ^ (m₂.log2 + 53) := by rw [← pow_add]; congr 1; omega
      _ ≤ 2 ^ (m₁.log2 + sh) := Nat.pow_le_pow_right (by norm_num) hle
      _ = 2 ^ m₁.log2 * 2 ^ sh := pow_add _ _ _
      _ ≤ m₁ * 2 ^ sh := Nat.mul_le_mul_right _ (Nat.log2_self_le h₁.ne')
  have he : T ≤ Format.binary64.targetExponent (totalExponent (m₁ * 2 ^ sh / m₂) T) := by
    rw [targetExponent_eq]
    unfold totalExponent
    by_cases hTmin : -1074 < T
    · have h52 := hfull hTmin
      have : 52 ≤ (m₁ * 2 ^ sh / m₂).log2 := (Nat.le_log2 (by omega)).2 h52
      omega
    · omega
  have hm : 0 < m₁ * 2 ^ sh / m₂ ∨ T ≤ -1074 := by
    by_cases hTmin : -1074 < T
    · exact .inl (lt_of_lt_of_le (by norm_num) (hfull hTmin))
    · exact .inr (by omega)
  rw [hdiv, ← hvalue]
  exact roundWithAccuracy_stands hrep he hm (s / t)

/-- The product of two canonical finite doubles is their exact product
rounded. -/
theorem mul_finite_stands (s t : Sign) {m₁ m₂ : ℕ} {e₁ e₂ : ℤ} (h₁ : 0 < m₁) (h₂ : 0 < m₂)
    (hc₁ : Canonical m₁ e₁) (hc₂ : Canonical m₂ e₂) :
    Stands (UnpackedFloat.mul .binary64 (.finite s m₁ e₁ h₁) (.finite t m₂ e₂ h₂)) (s * t)
      (nearest (m₁ * 2 ^ e₁ * (m₂ * 2 ^ e₂))) := by
  have hp : 0 < m₁ * m₂ := Nat.mul_pos h₁ h₂
  -- the product's exponent is at or below its target: a short product is one of two subnormals
  have he : e₁ + e₂ ≤ Format.binary64.targetExponent (totalExponent (m₁ * m₂) (e₁ + e₂)) := by
    rw [targetExponent_eq]
    unfold totalExponent
    by_cases h52 : 2 ^ 52 ≤ m₁ * m₂
    · have : 52 ≤ (m₁ * m₂).log2 := (Nat.le_log2 hp.ne').2 h52
      omega
    · have hs₁ : e₁ = -1074 := hc₁.2.2.resolve_left fun h =>
        h52 (h.trans (Nat.le_mul_of_pos_right m₁ h₂))
      have hs₂ : e₂ = -1074 := hc₂.2.2.resolve_left fun h =>
        h52 (h.trans (Nat.le_mul_of_pos_left m₂ h₁))
      omega
  have hround := roundWithAccuracy_stands (represents_exact (m₁ * m₂)) he (.inl hp) (s * t)
  have hvalue : ((m₁ * m₂ : ℕ) : ℝ) * 2 ^ (e₁ + e₂) = m₁ * 2 ^ e₁ * (m₂ * 2 ^ e₂) := by
    rw [zpow_add₀ two_ne_zero]
    push_cast
    ring
  rw [hvalue] at hround
  exact hround

theorem signReal_mul (s : Sign) (a r : ℝ) : signReal s a * r = signReal s (a * r) := by
  cases s
  · exact neg_mul a r
  · rfl

theorem div_positive (s : Sign) : s / Sign.positive = s := by cases s <;> rfl

theorem mul_positive (s : Sign) : s * Sign.positive = s := by cases s <;> rfl

theorem signed_top_mul {r : ℝ} (hr : 0 < r) (s : Sign) : signed s ⊤ * (r : EReal) = signed s ⊤ := by
  cases s
  · show -⊤ * (r : EReal) = -⊤
    rw [EReal.neg_top, EReal.bot_mul_coe_of_pos hr]
  · exact EReal.top_mul_coe_of_pos hr

/-- Scaling a double by a positive finite one: dividing by it or
multiplying by it, given as the step on unpacked doubles and the real factor
it scales the exact value by. -/
theorem valueE_repack_scale (op : UnpackedFloat → UnpackedFloat) {r : ℝ} (hr : 0 < r)
    (hinf : ∀ s, op (.infinity s) = .infinity s) (hzero : ∀ s, ∃ s', op (.zero s) = .zero s')
    (hfin : ∀ s m e (h : 0 < m), Canonical m e → Stands (op (.finite s m e h)) s (nearest (m * 2 ^ e * r)))
    {u : UnpackedFloat} (hu : Encoded u) (hun : u.isNaN = false) :
    valueE (repack (op u)) = roundE (valueE u * r) ∧ (repack (op u)).isNaN = false := by
  cases u with
  | notANumber => cases hun
  | infinity s =>
    rw [hinf, repack_infinity, show valueE (.infinity s) = signed s ⊤ from rfl, signed_top_mul hr]
    refine ⟨?_, rfl⟩
    cases s <;> rfl
  | zero s =>
    obtain ⟨s', hs'⟩ := hzero s
    rw [hs', repack_zero]
    refine ⟨?_, rfl⟩
    show (0 : EReal) = roundE (0 * r)
    rw [zero_mul]
    exact roundReal_zero.symm
  | finite s m e hm =>
    obtain ⟨hval, hnan⟩ := valueE_repack (hfin s m e hm hu.1)
    refine ⟨?_, hnan⟩
    rw [hval, valueE_finite, ← EReal.coe_mul, roundE_coe, signReal_mul,
      roundReal_signReal s (by positivity)]

/-- **Division** by a positive finite double lands where the exact quotient
does. -/
theorem valueE_repack_div {mc : ℕ} {ec : ℤ} (hmc : 0 < mc) {u : UnpackedFloat} (hu : Encoded u)
    (hun : u.isNaN = false) :
    valueE (repack (UnpackedFloat.div .binary64 u (.finite .positive mc ec hmc))) =
        roundE (valueE u * ((mc * 2 ^ ec)⁻¹ : ℝ)) ∧
      (repack (UnpackedFloat.div .binary64 u (.finite .positive mc ec hmc))).isNaN = false := by
  refine valueE_repack_scale (UnpackedFloat.div .binary64 · (.finite .positive mc ec hmc))
    (by positivity) (fun s => ?_) (fun s => ⟨s / .positive, rfl⟩) (fun s m e h _ => ?_) hu hun
  · rw [show UnpackedFloat.div .binary64 (.infinity s) (.finite .positive mc ec hmc) =
      .infinity (s / .positive) from rfl, div_positive]
  · have h := div_finite_stands s .positive e ec h hmc
    rwa [div_positive, div_eq_mul_inv] at h

/-- **Multiplication** by a positive finite canonical double lands where the
exact product does. -/
theorem valueE_repack_mul {mc : ℕ} {ec : ℤ} (hmc : 0 < mc) (hc : Canonical mc ec) {u : UnpackedFloat}
    (hu : Encoded u) (hun : u.isNaN = false) :
    valueE (repack (UnpackedFloat.mul .binary64 u (.finite .positive mc ec hmc))) =
        roundE (valueE u * (mc * 2 ^ ec : ℝ)) ∧
      (repack (UnpackedFloat.mul .binary64 u (.finite .positive mc ec hmc))).isNaN = false := by
  refine valueE_repack_scale (UnpackedFloat.mul .binary64 · (.finite .positive mc ec hmc))
    (by positivity) (fun s => ?_) (fun s => ⟨s * .positive, rfl⟩) (fun s m e h hce => ?_) hu hun
  · rw [show UnpackedFloat.mul .binary64 (.infinity s) (.finite .positive mc ec hmc) =
      .infinity (s * .positive) from rfl, mul_positive]
  · have h := mul_finite_stands s .positive h hmc hce hc
    rwa [mul_positive] at h

/-- Dividing a number by the positive infinity gives a zero, or NaN for an
infinity. -/
theorem div_infinity {u : UnpackedFloat} (hun : u.isNaN = false) :
    (repack (UnpackedFloat.div .binary64 u (.infinity .positive))).isNaN = true ∨
      valueE (repack (UnpackedFloat.div .binary64 u (.infinity .positive))) = 0 := by
  cases u with
  | notANumber => cases hun
  | infinity s => exact .inl (by rw [show UnpackedFloat.div .binary64 (.infinity s) (.infinity .positive) =
      .notANumber from rfl, repack_notANumber]; rfl)
  | zero s => exact .inr (by rw [show UnpackedFloat.div .binary64 (.zero s) (.infinity .positive) =
      .zero (s / .positive) from rfl, repack_zero]; rfl)
  | finite s m e hm => exact .inr (by rw [show UnpackedFloat.div .binary64 (.finite s m e hm)
      (.infinity .positive) = .zero (s / .positive) from rfl, repack_zero]; rfl)

/-! ## Truncation to an unsigned integer -/

/-- The natural number a value truncates to in `UInt64`: its floor, clamped to
the range, zero at or below zero and the largest at the positive infinity. -/
noncomputable def clampFloor (v : EReal) : ℕ :=
  if v = ⊤ then 2 ^ 64 - 1 else min ⌊v.toReal⌋₊ (2 ^ 64 - 1)

theorem clampFloor_mono : Monotone clampFloor := by
  intro v w hvw
  unfold clampFloor
  by_cases hw : w = ⊤
  · rw [if_pos hw]
    split_ifs
    · exact le_rfl
    · exact min_le_right _ _
  · have hv : v ≠ ⊤ := ne_top_of_le_ne_top hw hvw
    rw [if_neg hv, if_neg hw]
    by_cases hvb : v = ⊥
    · rw [hvb, EReal.toReal_bot, Nat.floor_zero, Nat.zero_min]
      exact Nat.zero_le _
    · exact min_le_min_right _ (Nat.floor_mono (EReal.toReal_le_toReal hvw hvb hw))

theorem clampFloor_of_nonpos {v : EReal} (hv : v ≤ 0) : clampFloor v = 0 := by
  rw [clampFloor, if_neg (ne_top_of_le_ne_top EReal.zero_ne_top hv),
    Nat.floor_of_nonpos (EReal.toReal_nonpos hv), Nat.zero_min]

theorem roundToInt_positive (m : ℕ) (e : ℤ) : roundToInt .positive m e = ⌊(m : ℝ) * 2 ^ e⌋₊ := by
  -- the mantissa moves down to an exponent of at most zero, then shifts up to zero
  have hd : (decreaseExponent m e 0).2 = -((0 - (decreaseExponent m e 0).2).toNat : ℤ) := by
    show e - ((e - 0).toNat : ℤ) = -((0 - (e - ((e - 0).toNat : ℤ))).toNat : ℤ)
    omega
  have hfloor := ((represents_exact (decreaseExponent m e 0).1).shiftRight
    (0 - (decreaseExponent m e 0).2).toNat).floor
  rw [div_eq_mul_inv, ← zpow_natCast, ← zpow_neg, ← hd, decreaseExponent_value] at hfloor
  rw [Int.natCast_floor_eq_floor (by positivity), hfloor]
  rfl

theorem toNat_ofNatClamp (n : ℕ) : (UInt64.ofNatClamp n).toNat = min n (2 ^ 64 - 1) := by
  have hsize : UInt64.size = 2 ^ 64 := rfl
  unfold UInt64.ofNatClamp
  split_ifs with h
  · rw [UInt64.toNat_ofNatLT]
    omega
  · rw [UInt64.toNat_ofNatLT]
    omega

/-- **Truncation to `UInt64`.** A double that is a number truncates to the
floor of its value, clamped to the range of `UInt64`. -/
theorem toUInt64_toNat {u : UnpackedFloat} (hun : u.isNaN = false) :
    u.toUInt64.toNat = clampFloor (valueE u) := by
  cases u with
  | notANumber => cases hun
  | infinity s =>
    cases s
    · have hv : valueE (.infinity .negative) ≤ 0 := signed_negative_nonpos le_top
      rw [clampFloor_of_nonpos hv]
      rfl
    · rw [show valueE (.infinity .positive) = ⊤ from rfl, clampFloor, if_pos rfl]
      rfl
  | zero s =>
    rw [show valueE (.zero s) = 0 from rfl, clampFloor_of_nonpos le_rfl]
    rfl
  | finite s m e hm =>
    cases s
    · -- a negative value truncates to zero
      have hv : valueE (.finite .negative m e hm) ≤ 0 :=
        signed_negative_nonpos (EReal.coe_nonneg.2 (by positivity))
      have hneg : roundToInt .negative m e = -(⌊(m : ℝ) * 2 ^ e⌋₊ : ℤ) := by
        rw [← roundToInt_positive]
        rfl
      rw [clampFloor_of_nonpos hv]
      show (UInt64.ofNatClamp (roundToInt .negative m e).toNat).toNat = 0
      rw [hneg, toNat_ofNatClamp]
      simp
    · show (UInt64.ofNatClamp (roundToInt .positive m e).toNat).toNat = clampFloor ((m * 2 ^ e : ℝ) : EReal)
      rw [roundToInt_positive, Int.toNat_natCast, toNat_ofNatClamp, clampFloor,
        if_neg (EReal.coe_ne_top _), EReal.toReal_coe]

/-! ## Arithmetic on doubles -/

section Arithmetic

variable {x y : Float}

theorem unpack_sub (x y : Float) :
    (x - y).toModel.unpack = repack (UnpackedFloat.sub .binary64 x.toModel.unpack y.toModel.unpack) :=
  rfl

theorem unpack_div (x y : Float) :
    (x / y).toModel.unpack = repack (UnpackedFloat.div .binary64 x.toModel.unpack y.toModel.unpack) :=
  rfl

theorem unpack_mul (x y : Float) :
    (x * y).toModel.unpack = repack (UnpackedFloat.mul .binary64 x.toModel.unpack y.toModel.unpack) :=
  rfl

theorem isNaN_of_le (h : x ≤ y) : x.isNaN = false ∧ y.isNaN = false := by
  rw [le_def] at h
  rw [isNaN_def, isNaN_def]
  cases hx : x.toModel.unpack <;> cases hy : y.toModel.unpack <;>
    simp_all [UnpackedFloat.le, UnpackedFloat.compare, UnpackedFloat.isNaN]

theorem isNaN_of_repack {z : Float} {w : UnpackedFloat} (hz : z.toModel.unpack = repack w)
    (hw : w = .notANumber) : z.isNaN = true := by
  rw [isNaN_def, hz, hw, repack_notANumber]
  rfl

theorem sub_isNaN_of_left (hx : x.isNaN = true) : (x - y).isNaN = true :=
  isNaN_of_repack (unpack_sub x y) (by rw [unpack_eq_of_isNaN hx]; rfl)

theorem sub_isNaN_of_right (hy : y.isNaN = true) : (x - y).isNaN = true :=
  isNaN_of_repack (unpack_sub x y) (by rw [unpack_eq_of_isNaN hy]; cases x.toModel.unpack <;> rfl)

theorem div_isNaN_of_left (hx : x.isNaN = true) : (x / y).isNaN = true :=
  isNaN_of_repack (unpack_div x y) (by rw [unpack_eq_of_isNaN hx]; rfl)

theorem div_isNaN_of_right (hy : y.isNaN = true) : (x / y).isNaN = true :=
  isNaN_of_repack (unpack_div x y) (by rw [unpack_eq_of_isNaN hy]; cases x.toModel.unpack <;> rfl)

theorem mul_isNaN_of_left (hx : x.isNaN = true) : (x * y).isNaN = true :=
  isNaN_of_repack (unpack_mul x y) (by rw [unpack_eq_of_isNaN hx]; rfl)

/-- **Subtraction** of doubles lands where the exact difference of their
values does, unless it is NaN. -/
theorem valueE_sub (h : (x - y).isNaN = false) :
    valueE (x - y).toModel.unpack = roundE (valueE x.toModel.unpack - valueE y.toModel.unpack) :=
  valueE_repack_sub (encoded_toModel x) (encoded_toModel y) h

theorem valueE_eq_of_sub_isNaN (hx : x.isNaN = false) (hy : y.isNaN = false) (h : (x - y).isNaN = true) :
    valueE x.toModel.unpack = valueE y.toModel.unpack := by
  rw [isNaN_def, unpack_sub] at h
  rw [isNaN_def] at hx hy
  have hu := encoded_toModel x
  have hv := encoded_toModel y
  generalize x.toModel.unpack = u at *
  generalize y.toModel.unpack = v at *
  cases u with
  | notANumber => cases hx
  | infinity s =>
    cases v with
    | notANumber => cases hy
    | infinity t =>
      -- infinities of one sign subtract to NaN, of opposite signs to the first
      cases s <;> cases t
      · rfl
      · rw [show UnpackedFloat.sub .binary64 (.infinity .negative) (.infinity .positive) =
          .infinity .negative from rfl, repack_infinity] at h
        cases h
      · rw [show UnpackedFloat.sub .binary64 (.infinity .positive) (.infinity .negative) =
          .infinity .positive from rfl, repack_infinity] at h
        cases h
      · rfl
    | zero t => cases s <;> simp_all [UnpackedFloat.sub, repack_infinity, UnpackedFloat.isNaN]
    | finite t m e hm => cases s <;> simp_all [UnpackedFloat.sub, repack_infinity, UnpackedFloat.isNaN]
  | zero s =>
    cases v with
    | notANumber => cases hy
    | infinity t => cases t <;> simp_all [UnpackedFloat.sub, repack_infinity, UnpackedFloat.isNaN]
    | zero t =>
      obtain ⟨s', hs'⟩ : ∃ s', UnpackedFloat.sub .binary64 (.zero s) (.zero t) = .zero s' := by
        simp only [UnpackedFloat.sub]
        split <;> exact ⟨_, rfl⟩
      rw [hs', repack_zero] at h
      cases h
    | finite t m e hm =>
      rw [show UnpackedFloat.sub .binary64 (.zero s) (.finite t m e hm) = .finite (-t) m e hm from rfl,
        repack_finite hv.1 hv.2] at h
      cases h
  | finite s m e hm =>
    cases v with
    | notANumber => cases hy
    | infinity t => cases t <;> simp_all [UnpackedFloat.sub, repack_infinity, UnpackedFloat.isNaN]
    | zero t =>
      rw [show UnpackedFloat.sub .binary64 (.finite s m e hm) (.zero t) = .finite s m e hm from rfl,
        repack_finite hu.1 hu.2] at h
      cases h
    | finite t m' e' hm' =>
      -- two numbers: the difference is normalized, never NaN
      have hnum := (valueE_repack_of_roundsTo (normalize_roundsTo
        (s.apply (decreaseExponent m e (min e e')).1 - t.apply (decreaseExponent m' e' (min e e')).1)
        (min e e') .positive)).2
      exact absurd h (by rw [Bool.not_eq_true]; exact hnum)

/-- **Division** by a positive finite double lands where the exact quotient
does. -/
theorem valueE_div_of_finite {m : ℕ} {e : ℤ} {hm : 0 < m} (hy : y.toModel.unpack = .finite .positive m e hm)
    (hx : x.isNaN = false) :
    valueE (x / y).toModel.unpack = roundE (valueE x.toModel.unpack * ((m * 2 ^ e)⁻¹ : ℝ)) ∧
      (x / y).isNaN = false := by
  rw [isNaN_def, unpack_div, hy]
  exact valueE_repack_div hm (encoded_toModel x) hx

/-- **Multiplication** by a positive finite double lands where the exact
product does. -/
theorem valueE_mul_of_finite {m : ℕ} {e : ℤ} {hm : 0 < m} (hy : y.toModel.unpack = .finite .positive m e hm)
    (hx : x.isNaN = false) :
    valueE (x * y).toModel.unpack = roundE (valueE x.toModel.unpack * (m * 2 ^ e : ℝ)) ∧
      (x * y).isNaN = false := by
  have hc : Canonical m e := by
    have h := encoded_toModel y
    rw [hy] at h
    exact h.1
  rw [isNaN_def, unpack_mul, hy]
  exact valueE_repack_mul hm hc (encoded_toModel x) hx

/-- Dividing a number by the positive infinity gives a zero, or NaN for an
infinity. -/
theorem div_infinity_eq (hy : y.toModel.unpack = .infinity .positive) (hx : x.isNaN = false) :
    (x / y).isNaN = true ∨ valueE (x / y).toModel.unpack = 0 := by
  rw [isNaN_def, unpack_div, hy]
  exact div_infinity hx

/-- A number of positive value is the positive infinity or a positive finite
double. -/
theorem eq_of_valueE_pos {u : UnpackedFloat} (hun : u.isNaN = false) (hpos : 0 < valueE u) :
    u = .infinity .positive ∨ ∃ m e hm, u = .finite .positive m e hm := by
  cases u with
  | notANumber => cases hun
  | infinity s =>
    cases s
    · exact absurd hpos (not_lt.2 (signed_negative_nonpos le_top))
    · exact .inl rfl
  | zero s => exact absurd hpos (lt_irrefl 0)
  | finite s m e hm =>
    cases s
    · have hv : valueE (.finite .negative m e hm) ≤ 0 :=
        signed_negative_nonpos (EReal.coe_nonneg.2 (by positivity))
      exact absurd hpos (not_lt.2 hv)
    · exact .inr ⟨m, e, hm, rfl⟩

theorem roundReal_natCast {n : ℕ} (hn : n < 2 ^ 53) : roundReal n = ((n : ℝ) : EReal) := by
  have hlt : (n : ℝ) < 2 ^ 1024 := by
    calc (n : ℝ) < 2 ^ 53 := by exact_mod_cast hn
      _ ≤ 2 ^ 1024 := pow_le_pow_right₀ (by norm_num) (by norm_num)
  rw [roundReal, if_pos (Nat.cast_nonneg n), nearest_natCast hn, bounded, Nat.cast_ofNat, if_neg (not_le.2 hlt)]

/-- **A natural number below `2^53` converts to a double exactly.** -/
theorem valueE_natCast {n : ℕ} (hn : n < 2 ^ 53) :
    valueE n.toFloat.toModel.unpack = (n : ℝ) ∧ n.toFloat.isNaN = false := by
  -- the conversion goes through `UInt64` and multiplies by the power `10^0`
  have hcast : n.toFloat = n.toUInt64.toFloat * Float.ofBits 0x3FF0000000000000 := by
    show Float.ofScientific n false 0 = _
    rw [Float.ofScientific, dif_pos ⟨hn, by norm_num⟩]
    rfl
  have hone : (Float.ofBits 0x3FF0000000000000).toModel.unpack =
      .finite .positive (2 ^ 52) (-52) (by norm_num) := rfl
  have hk : (n.toUInt64.toNat : ℤ) = (n : ℤ) := by
    simp [Nat.toUInt64]
    omega
  have hconv : valueE n.toUInt64.toFloat.toModel.unpack = ((n : ℝ) : EReal) ∧
      n.toUInt64.toFloat.isNaN = false := by
    have h := valueE_repack_of_roundsTo (normalize_roundsTo (n.toUInt64.toNat : ℤ) 0 .positive)
    have hunpack : n.toUInt64.toFloat.toModel.unpack =
        repack (UnpackedFloat.normalize .binary64 (n.toUInt64.toNat : ℤ) 0 .positive) := rfl
    rw [isNaN_def, hunpack]
    refine ⟨?_, h.2⟩
    rw [h.1, hk, zpow_zero, mul_one, Int.cast_natCast, roundReal_natCast hn]
  have hunit : ((2 ^ 52 : ℕ) : ℝ) * (2 : ℝ) ^ (-52 : ℤ) = 1 := by
    rw [Nat.cast_pow, Nat.cast_ofNat, ← zpow_natCast, ← zpow_add₀ two_ne_zero]
    norm_num
  obtain ⟨hval, hnan⟩ := valueE_mul_of_finite hone hconv.2
  refine ⟨?_, hcast ▸ hnan⟩
  rw [hcast, hval, hconv.1, ← EReal.coe_mul, roundE_coe, hunit, mul_one, roundReal_natCast hn]

end Arithmetic

end Doubles

end Subsurface
