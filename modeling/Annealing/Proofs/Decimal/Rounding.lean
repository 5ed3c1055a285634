import Annealing.Decimal.Binary64
import Annealing.Proofs.Decimal.Lattice
import Mathlib

/-! # How doubles are rounded

The products and quotients of doubles are rounded to the nearest double.  The definitions that
compute them shift bits out of a significand and keep a round bit and a sticky bit; here they are
read as arithmetic on rational numbers.  A significand may itself be the integer part of a fraction,
with an accuracy that says how much is missing.

* `Located` — what the two bits say of the rest that is left out.
* `exists_roundWithAccuracy_fraction` — rounding a fraction leads to a nearest pair.
* `exists_roundWithAccuracy` — and so does rounding what has no rest.
* `exists_round` — however few bits it has.
-/

namespace Annealing.Decimal

open Float.Model (Format UnpackedFloat totalExponent)
open Float.Model.UnpackedFloat (Accuracy ExtendedMantissa Sign accuracyOfFraction roundWithAccuracy
  shiftToExponent shiftToTargetExponent)

/-! ## Shifting bits out -/

/-- The integer part of a fraction, and what the round bit and the sticky bit say of the rest. -/
structure Located (n d : Nat) (em : ExtendedMantissa) : Prop where
  mantissa_eq : em.mantissa = n / d
  round_iff : em.roundBit = true ↔ d ≤ 2 * (n % d)
  sticky_iff : em.stickyBit = true ↔ n % d ≠ 0 ∧ 2 * (n % d) ≠ d

theorem located_fraction (n : Nat) {d : Nat} (hd : 0 < d) :
    Located n d (.ofMantissaAndAccuracy (n / d) (accuracyOfFraction (n % d) d)) := by
  by_cases hexact : n % d = 0
  · rw [accuracyOfFraction, if_pos hexact]
    exact ⟨rfl, by simp [ExtendedMantissa.ofMantissaAndAccuracy, hexact, hd.ne'],
      by simp [ExtendedMantissa.ofMantissaAndAccuracy, hexact]⟩
  · rw [accuracyOfFraction, if_neg hexact]
    rcases lt_trichotomy (2 * (n % d)) d with hlt | heq | hgt
    · rw [compare_lt_iff_lt.mpr hlt]
      exact ⟨rfl, by simp [ExtendedMantissa.ofMantissaAndAccuracy, hlt],
        by simp [ExtendedMantissa.ofMantissaAndAccuracy, hexact, hlt.ne]⟩
    · rw [compare_eq_iff_eq.mpr heq]
      exact ⟨rfl, by simp [ExtendedMantissa.ofMantissaAndAccuracy, heq],
        by simp [ExtendedMantissa.ofMantissaAndAccuracy, heq]⟩
    · rw [compare_gt_iff_gt.mpr hgt]
      exact ⟨rfl, by simp [ExtendedMantissa.ofMantissaAndAccuracy, hgt.le],
        by simp [ExtendedMantissa.ofMantissaAndAccuracy, hexact, hgt.ne']⟩

theorem Located.shiftRightOne {n d : Nat} {em : ExtendedMantissa} (hd : 0 < d)
    (hlocated : Located n d em) : Located n (d * 2) em.shiftRightOne := by
  have hrest : n % (d * 2) = n % d + d * (n / d % 2) := Nat.mod_mul
  have hlt : n % d < d := Nat.mod_lt _ hd
  obtain ⟨hmantissa, hround, hsticky⟩ := hlocated
  have hbits : (em.roundBit || em.stickyBit) = true ↔ n % d ≠ 0 := by
    rw [Bool.or_eq_true, hround, hsticky]
    omega
  refine ⟨?_, ?_, ?_⟩
  · change em.mantissa / 2 = n / (d * 2)
    rw [hmantissa, Nat.div_div_eq_div_mul]
  · change (em.mantissa % 2 != 0) = true ↔ _
    rw [bne_iff_ne, hmantissa, hrest]
    rcases Nat.mod_two_eq_zero_or_one (n / d) with hzero | hone
    · rw [hzero]
      omega
    · rw [hone]
      omega
  · change (em.roundBit || em.stickyBit) = true ↔ _
    rw [hbits, hrest]
    rcases Nat.mod_two_eq_zero_or_one (n / d) with hzero | hone
    · rw [hzero]
      omega
    · rw [hone]
      omega

theorem Located.shiftRight {n d : Nat} {em : ExtendedMantissa} (hd : 0 < d)
    (hlocated : Located n d em) (k : Nat) : Located n (d * 2 ^ k) (em >>> k) := by
  induction k with
  | zero => simpa [HShiftRight.hShiftRight, Nat.repeat] using hlocated
  | succ k ih =>
    rw [Nat.pow_succ, ← Nat.mul_assoc]
    exact ih.shiftRightOne (Nat.mul_pos hd (Nat.two_pow_pos k))

/-- The rounded significand is within half a step. -/
theorem Located.rounded_bounds {n d : Nat} {em : ExtendedMantissa} (hd : 0 < d)
    (hlocated : Located n d em) :
    2 * (d * em.roundedMantissa) ≤ 2 * n + d ∧ 2 * n ≤ 2 * (d * em.roundedMantissa) + d := by
  have hdivision : d * (n / d) + n % d = n := Nat.div_add_mod n d
  have hlt : n % d < d := Nat.mod_lt _ hd
  obtain ⟨q, round, sticky⟩ := em
  obtain ⟨rfl, hround, hsticky⟩ := hlocated
  have hnext : d * (n / d + 1) = d * (n / d) + d := Nat.mul_succ _ _
  cases round with
  | false =>
    -- Less than half a step is cut off.
    have hless : 2 * (n % d) < d := by simpa using hround
    have hdown : (ExtendedMantissa.mk (n / d) false sticky).roundedMantissa = n / d := by
      cases sticky <;> rfl
    rw [hdown]
    omega
  | true =>
    have hhalf : d ≤ 2 * (n % d) := by simpa using hround
    cases sticky with
    | true =>
      have hup : (ExtendedMantissa.mk (n / d) true true).roundedMantissa = n / d + 1 := rfl
      rw [hup, hnext]
      omega
    | false =>
      -- Just half a step is cut off, so both neighbours are as near.
      have htie : 2 * (n % d) = d := by
        have hnot : ¬ (n % d ≠ 0 ∧ 2 * (n % d) ≠ d) := by simpa using hsticky
        omega
      have heven : (ExtendedMantissa.mk (n / d) true false).roundedMantissa =
          n / d + n / d % 2 := rfl
      rw [heven]
      rcases Nat.mod_two_eq_zero_or_one (n / d) with hzero | hone
      · rw [hzero, Nat.add_zero]
        omega
      · rw [hone, hnext]
        omega

/-- Where just half a step is cut off or added, the rounded significand is even. -/
theorem Located.rounded_even {n d : Nat} {em : ExtendedMantissa} (hd : 0 < d)
    (hlocated : Located n d em)
    (htie : 2 * (d * em.roundedMantissa) = 2 * n + d ∨ 2 * n = 2 * (d * em.roundedMantissa) + d) :
    em.roundedMantissa % 2 = 0 := by
  have hdivision : d * (n / d) + n % d = n := Nat.div_add_mod n d
  have hlt : n % d < d := Nat.mod_lt _ hd
  obtain ⟨q, round, sticky⟩ := em
  obtain ⟨rfl, hround, hsticky⟩ := hlocated
  have hnext : d * (n / d + 1) = d * (n / d) + d := Nat.mul_succ _ _
  cases round with
  | false =>
    have hless : 2 * (n % d) < d := by simpa using hround
    have hdown : (ExtendedMantissa.mk (n / d) false sticky).roundedMantissa = n / d := by
      cases sticky <;> rfl
    rw [hdown] at htie
    omega
  | true =>
    cases sticky with
    | true =>
      have hmore : 2 * (n % d) ≠ d := (by simpa using hsticky : _ ∧ _).2
      have hup : (ExtendedMantissa.mk (n / d) true true).roundedMantissa = n / d + 1 := rfl
      rw [hup, hnext] at htie
      omega
    | false =>
      have heven : (ExtendedMantissa.mk (n / d) true false).roundedMantissa =
          n / d + n / d % 2 := rfl
      rw [heven]
      omega

/-! ## Rounding to the format -/

/-- The exponent of a number of the format with given bits. -/
theorem targetExponent_eq (n : Nat) (e : Int) :
    Format.binary64.targetExponent (totalExponent n e) = max (n.log2 + e - 52) (-1074) := by
  have hmantissa : (Format.binary64.mantissaBits : Int) = 53 := rfl
  have hleast : Format.binary64.minExponent = -1074 := rfl
  rw [Format.targetExponent, totalExponent, hmantissa, hleast]
  congr 1
  omega

theorem shiftToTargetExponent_eq (n : Nat) (e : Int) (accuracy : Accuracy) {k : Nat}
    (hk : (max (n.log2 + e - 52) (-1074) - e).toNat = k) :
    shiftToTargetExponent .binary64 n e accuracy =
      (ExtendedMantissa.ofMantissaAndAccuracy n accuracy >>> k, e + k) := by
  rw [shiftToTargetExponent, targetExponent_eq, shiftToExponent, hk]

/-- A pair as a double. -/
def ofPair (sign : Sign) (m : Nat) (e : Int) : UnpackedFloat :=
  if h : m = 0 then .zero sign else .finite sign m e (Nat.pos_of_ne_zero h)

/-- Where the significand fits after the first shift, nothing else is done. -/
theorem roundWithAccuracy_of_lt (sign : Sign) {n r k : Nat} {e : Int} {accuracy : Accuracy}
    (hk : (max (n.log2 + e - 52) (-1074) - e).toNat = k) (hleast : -1074 ≤ e + k)
    (hr : (ExtendedMantissa.ofMantissaAndAccuracy n accuracy >>> k).roundedMantissa = r)
    (hlt : r < 2 ^ 53) :
    roundWithAccuracy .binary64 sign n e accuracy = ofPair sign r (e + k) := by
  have hlog : r.log2 ≤ 52 := by
    by_cases hzero : r = 0
    · simp [hzero]
    · have := (Nat.log2_lt hzero).mpr hlt
      omega
  have hsecond : shiftToTargetExponent .binary64 r (e + k) .exact =
      (ExtendedMantissa.mk r false false, e + k) := by
    rw [shiftToTargetExponent_eq r (e + k) .exact (by omega : _ = 0), Int.natCast_zero,
      Int.add_zero]
    rfl
  simp only [roundWithAccuracy, shiftToTargetExponent_eq n e accuracy hk, hr, hsecond]
  rfl

/-- Where rounding up led to the next power of two, the significand is halved. -/
theorem roundWithAccuracy_of_eq (sign : Sign) {n k : Nat} {e : Int} {accuracy : Accuracy}
    (hk : (max (n.log2 + e - 52) (-1074) - e).toNat = k) (hleast : -1074 ≤ e + k)
    (hr : (ExtendedMantissa.ofMantissaAndAccuracy n accuracy >>> k).roundedMantissa = 2 ^ 53) :
    roundWithAccuracy .binary64 sign n e accuracy = ofPair sign (2 ^ 52) (e + k + 1) := by
  have hone : (max ((2 ^ 53 : Nat).log2 + (e + k) - 52) (-1074) - (e + k)).toNat = 1 := by
    rw [Nat.log2_two_pow]
    omega
  have hsecond := shiftToTargetExponent_eq (2 ^ 53) (e + k) .exact hone
  simp only [roundWithAccuracy, shiftToTargetExponent_eq n e accuracy hk, hr, hsecond]
  rfl

/-- How far a multiple is from a fraction. -/
theorem abs_sub_fraction (n d r k : Nat) (e : Int) (hd : 0 < d) :
    |r * 2 ^ (e + k) - pairValue n e / d| = |d * 2 ^ k * (r : ℚ) - n| * (2 ^ e / d) := by
  have hpos : (0 : ℚ) < 2 ^ e / d := by positivity
  rw [pairValue, zpow_add₀ two_ne_zero, zpow_natCast, ← abs_of_pos hpos, ← abs_mul]
  congr 1
  field_simp

theorem half_step_eq (d k : Nat) (e : Int) (hd : 0 < d) :
    (2 : ℚ) ^ (e + k) / 2 = d * 2 ^ k / 2 * (2 ^ e / d) := by
  rw [zpow_add₀ two_ne_zero, zpow_natCast]
  field_simp

section Steps

variable {n d r k : Nat} (e : Int) (hd : 0 < d)

include hd

/-- The multiple that bits are rounded to is within half a step. -/
theorem abs_sub_fraction_le (hlower : 2 * (d * 2 ^ k * r) ≤ 2 * n + d * 2 ^ k)
    (hupper : 2 * n ≤ 2 * (d * 2 ^ k * r) + d * 2 ^ k) :
    |r * 2 ^ (e + k) - pairValue n e / d| ≤ 2 ^ (e + k) / 2 := by
  have hlowerQ : (2 * (d * 2 ^ k * r) : ℚ) ≤ 2 * n + d * 2 ^ k := by exact_mod_cast hlower
  have hupperQ : (2 * n : ℚ) ≤ 2 * (d * 2 ^ k * r) + d * 2 ^ k := by exact_mod_cast hupper
  have hnear : |d * 2 ^ k * (r : ℚ) - n| ≤ d * 2 ^ k / 2 := abs_le.mpr ⟨by linarith, by linarith⟩
  rw [abs_sub_fraction n d r k e hd, half_step_eq d k e hd]
  exact mul_le_mul_of_nonneg_right hnear (by positivity)

/-- A multiple that is half a step away is so in whole numbers. -/
theorem half_step_of_abs_sub_fraction
    (hhalf : |r * 2 ^ (e + k) - pairValue n e / d| = 2 ^ (e + k) / 2) :
    2 * (d * 2 ^ k * r) = 2 * n + d * 2 ^ k ∨ 2 * n = 2 * (d * 2 ^ k * r) + d * 2 ^ k := by
  have hpos : (0 : ℚ) < 2 ^ e / d := by positivity
  rw [abs_sub_fraction n d r k e hd, half_step_eq d k e hd, mul_left_inj' hpos.ne'] at hhalf
  rcases eq_or_eq_neg_of_abs_eq hhalf with hup | hdown
  · have hcast : (2 * (d * 2 ^ k * r) : ℚ) = 2 * n + d * 2 ^ k := by linarith
    exact .inl (by exact_mod_cast hcast)
  · have hcast : (2 * n : ℚ) = 2 * (d * 2 ^ k * r) + d * 2 ^ k := by linarith
    exact .inr (by exact_mod_cast hcast)

end Steps

/-- After the first shift at most 53 bits are left, and just as many unless the exponent is the
    least. -/
theorem bits_after_shift {n d k : Nat} {e : Int} (hd : 0 < d)
    (hbits : 52 ≤ (n / d).log2 ∨ e ≤ -1074)
    (hk : (max ((n / d).log2 + e - 52) (-1074) - e).toNat = k) :
    n < 2 ^ 53 * (d * 2 ^ k) ∧ (e + k = -1074 ∨ 2 ^ 52 * (d * 2 ^ k) ≤ n) := by
  constructor
  · have hlt : n / d < 2 ^ 53 * 2 ^ k := by
      rw [← Nat.pow_add]
      exact Nat.lt_of_lt_of_le Nat.lt_log2_self (Nat.pow_le_pow_right (by decide) (by omega))
    rw [Nat.mul_left_comm, Nat.mul_comm d]
    exact (Nat.div_lt_iff_lt_mul hd).mp hlt
  · by_cases hleast : e + k = -1074
    · exact .inl hleast
    · right
      have hne : n / d ≠ 0 := by
        intro hzero
        rw [hzero, Nat.log2_zero] at hbits hk
        omega
      have hle : 2 ^ 52 * 2 ^ k ≤ n / d := by
        rw [← Nat.pow_add, (by omega : 52 + k = (n / d).log2)]
        exact Nat.log2_self_le hne
      rw [Nat.mul_left_comm, Nat.mul_comm d]
      exact (Nat.le_div_iff_mul_le hd).mp hle

/-- Rounding keeps both bounds on the bits that are left, except that it may lead to the next power
    of two. -/
theorem bits_after_rounding {n d r : Nat} (hd : 0 < d) (hlower : 2 * (d * r) ≤ 2 * n + d)
    (hupper : 2 * n ≤ 2 * (d * r) + d) :
    (n < 2 ^ 53 * d → r ≤ 2 ^ 53) ∧ (2 ^ 52 * d ≤ n → 2 ^ 52 ≤ r) := by
  constructor
  · intro hfew
    have hscaled : d * (2 * r) < d * (2 * 2 ^ 53 + 1) := by
      rw [Nat.mul_left_comm, Nat.mul_add]
      omega
    have hlt := Nat.lt_of_mul_lt_mul_left hscaled
    omega
  · intro hfull
    have hscaled : d * (2 * 2 ^ 52) ≤ d * (2 * r + 1) := by
      rw [Nat.mul_add _ _ 1, Nat.mul_left_comm _ 2 r]
      omega
    have hle := Nat.le_of_mul_le_mul_left hscaled hd
    omega

/-- A fraction that has all of its bits after a shift. -/
theorem le_fraction {n d k : Nat} (e : Int) (hd : 0 < d) (hfull : 2 ^ 52 * (d * 2 ^ k) ≤ n) :
    2 ^ 52 * 2 ^ (e + k) ≤ pairValue n e / d := by
  have hcast : (2 ^ 52 * (d * 2 ^ k) : ℚ) ≤ n := by exact_mod_cast hfull
  rw [le_div_iff₀ (by exact_mod_cast hd)]
  calc (2 ^ 52 * 2 ^ (e + k) * d : ℚ) = 2 ^ 52 * (d * 2 ^ k) * 2 ^ e := by
        rw [zpow_add₀ two_ne_zero, zpow_natCast]
        ring
    _ ≤ n * 2 ^ e := mul_le_mul_of_nonneg_right hcast (by positivity)

/-- Rounding a fraction whose integer part has enough bits leads to a pair that is nearest to it,
    and to an even one of two. -/
theorem exists_roundWithAccuracy_fraction (sign : Sign) {n d : Nat} {e : Int} (hd : 0 < d)
    (hbits : 52 ≤ (n / d).log2 ∨ e ≤ -1074) :
    ∃ m a, Canonical m a ∧
      roundWithAccuracy .binary64 sign (n / d) e (accuracyOfFraction (n % d) d) =
        ofPair sign m a ∧
      NearestEven m a (pairValue n e / d) := by
  obtain ⟨k, hk⟩ : ∃ k, (max ((n / d).log2 + e - 52) (-1074) - e).toNat = k := ⟨_, rfl⟩
  obtain ⟨r, hr⟩ : ∃ r, (ExtendedMantissa.ofMantissaAndAccuracy (n / d)
      (accuracyOfFraction (n % d) d) >>> k).roundedMantissa = r := ⟨_, rfl⟩
  have hdk : 0 < d * 2 ^ k := Nat.mul_pos hd (Nat.two_pow_pos k)
  have hlocated := (located_fraction n hd).shiftRight hd k
  obtain ⟨hlower, hupper⟩ := hlocated.rounded_bounds hdk
  have heven := hlocated.rounded_even hdk
  rw [hr] at hlower hupper heven
  obtain ⟨hfew, hfull⟩ := bits_after_shift hd hbits hk
  obtain ⟨hr_le, hr_ge⟩ := bits_after_rounding hdk hlower hupper
  have hleast : -1074 ≤ e + k := by omega
  have hlarge : e + k = -1074 ∨ 2 ^ 52 * 2 ^ (e + k) ≤ pairValue n e / d :=
    hfull.imp_right (le_fraction e hd)
  have hhalf := abs_sub_fraction_le e hd hlower hupper
  have hnearest : ∀ m a, Canonical m a →
      |r * 2 ^ (e + k) - pairValue n e / d| ≤ |pairValue m a - pairValue n e / d| :=
    fun m a hpair => nearest hhalf hlarge hpair
  by_cases hlt : r < 2 ^ 53
  · refine ⟨r, e + k, ⟨hlt, hleast, (hfull.imp_right hr_ge).symm⟩,
      roundWithAccuracy_of_lt sign hk hleast hr hlt, hnearest, ?_⟩
    intro m a hpair hne hequal
    exact heven (half_step_of_abs_sub_fraction e hd
      (middle_of_equally_near hhalf hlarge hpair hne hequal))
  · obtain rfl : r = 2 ^ 53 := Nat.le_antisymm (hr_le hfew) (Nat.le_of_not_lt hlt)
    have hcarry : pairValue (2 ^ 52) (e + k + 1) = ((2 ^ 53 : Nat) : ℚ) * 2 ^ (e + k) := by
      rw [pairValue, zpow_add_one₀ two_ne_zero]
      push_cast
      ring
    refine ⟨2 ^ 52, e + k + 1, ⟨by decide, by omega, .inl le_rfl⟩,
      roundWithAccuracy_of_eq sign hk hleast hr, ?_, fun _ _ _ _ _ => by decide⟩
    rw [Nearest, hcarry]
    exact hnearest

/-- Rounding a number that has enough bits leads to a pair that is nearest to it. -/
theorem exists_roundWithAccuracy (sign : Sign) {n : Nat} {e : Int}
    (hbits : 52 ≤ n.log2 ∨ e ≤ -1074) :
    ∃ m a, Canonical m a ∧ roundWithAccuracy .binary64 sign n e .exact = ofPair sign m a ∧
      NearestEven m a (pairValue n e) := by
  have hfraction := exists_roundWithAccuracy_fraction sign (n := n) (e := e) Nat.one_pos
    (by rwa [Nat.div_one])
  simpa [accuracyOfFraction, Nat.mod_one] using hfraction

/-- A number with any exponent is given as many bits as are needed, and is rounded then. -/
theorem exists_round (sign : Sign) {n : Nat} (hn : n ≠ 0) (e : Int) :
    ∃ m a, Canonical m a ∧ UnpackedFloat.round .binary64 sign n e = ofPair sign m a ∧
      NearestEven m a (pairValue n e) := by
  obtain ⟨k, hk⟩ : ∃ k, (e - max (n.log2 + e - 52) (-1074)).toNat = k := ⟨_, rfl⟩
  have hshift : n * 2 ^ k ≠ 0 := Nat.mul_ne_zero hn (Nat.two_pow_pos k).ne'
  have hlog : n.log2 + k ≤ (n * 2 ^ k).log2 := by
    rw [Nat.le_log2 hshift, Nat.pow_add]
    exact Nat.mul_le_mul_right _ (Nat.log2_self_le hn)
  have hvalue : pairValue (n * 2 ^ k) (e - k) = pairValue n e := by
    rw [pairValue, pairValue, zpow_sub₀ two_ne_zero, zpow_natCast]
    push_cast
    field_simp
  obtain ⟨m, a, hpair, hround, hnearest⟩ :=
    exists_roundWithAccuracy sign (n := n * 2 ^ k) (e := e - k) (by omega)
  rw [hvalue] at hnearest
  refine ⟨m, a, hpair, ?_, hnearest⟩
  rw [← hround]
  simp only [UnpackedFloat.round, UnpackedFloat.decreaseExponent, targetExponent_eq, hk,
    Nat.shiftLeft_eq]

/-- So is an integer with a sign of its own. -/
theorem exists_normalize {i : Int} (hi : i ≠ 0) (e : Int) (zero : Sign) :
    ∃ m a, Canonical m a ∧
      UnpackedFloat.normalize .binary64 i e zero =
        ofPair (if i < 0 then .negative else .positive) m a ∧
      NearestEven m a (pairValue i.natAbs e) := by
  have hround (sign : Sign) := exists_round sign (Int.natAbs_ne_zero.mpr hi) e
  unfold UnpackedFloat.normalize
  rcases Int.lt_or_gt_of_ne hi with hneg | hpos
  · rw [compare_lt_iff_lt.mpr hneg, if_pos hneg]
    simp only [(by omega : (-i).toNat = i.natAbs)]
    exact hround .negative
  · rw [compare_gt_iff_gt.mpr hpos, if_neg (by omega)]
    simp only [(by omega : i.toNat = i.natAbs)]
    exact hround .positive

end Annealing.Decimal
