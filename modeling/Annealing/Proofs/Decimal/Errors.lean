import Annealing.Proofs.Decimal.Lattice
import Mathlib.Algebra.Order.Floor.Semiring
import Mathlib.Analysis.SpecialFunctions.Log.Basic
import Mathlib.Data.Int.Log

/-! # How far rounding leads

A number is rounded to a pair that is nearest to it.  The pair differs by one part in `2 ^ 53` at
most, or, where pairs are spaced evenly because their exponent is the least, by half a step.

* `exists_near` — each real number that is not negative has a pair that near.
* `Nearest.abs_sub_le` — so nearest pairs are that near.
* `Nearest.mul_le_and_mul_le` — the relative error of pairs that are not below the least normal
  number, from both sides.
* `Nearest.abs_log_sub_le` — the same for logarithms: `drift` is what rounding once may cost.
-/

namespace Annealing.Decimal

/-! ## Near pairs -/

/-- The multiple of a step that a number is rounded to is within half a step. -/
theorem abs_floor_mul_sub_le {v s : ℝ} (hv : 0 ≤ v) (hs : 0 < s) :
    |⌊v / s + 1 / 2⌋₊ * s - v| ≤ s / 2 := by
  have hnonneg : 0 ≤ v / s + 1 / 2 := by positivity
  have hle := Nat.floor_le hnonneg
  have hlt := Nat.lt_floor_add_one (v / s + 1 / 2)
  have hsplit : v = v / s * s := (div_mul_cancel₀ v hs.ne').symm
  rw [abs_le]
  constructor <;> nlinarith

theorem two_pow_mul_zpow (k : Nat) (t : Int) : (2 : ℝ) ^ k * 2 ^ t = 2 ^ (k + t) := by
  rw [← zpow_natCast, ← zpow_add₀ two_ne_zero]

/-- The step between pairs of the size of a number. -/
theorem exists_step (v : ℝ) : ∃ t : Int, -1074 ≤ t ∧ v < 2 ^ 53 * 2 ^ t ∧
    (t = -1074 ∨ 2 ^ 52 * 2 ^ t ≤ v) := by
  by_cases hsmall : v < 2 ^ 53 * 2 ^ (-1074 : Int)
  · exact ⟨-1074, le_rfl, hsmall, .inl rfl⟩
  · have hlarge : 2 ^ 53 * 2 ^ (-1074 : Int) ≤ v := not_lt.mp hsmall
    have hlow : (2 : ℝ) ^ Int.log 2 v ≤ v :=
      Int.zpow_log_le_self one_lt_two (lt_of_lt_of_le (by positivity) hlarge)
    have hhigh : v < (2 : ℝ) ^ (Int.log 2 v + 1) := Int.lt_zpow_succ_log_self one_lt_two v
    rw [two_pow_mul_zpow] at hlarge
    have hlog := (zpow_lt_zpow_iff_right₀ (one_lt_two (α := ℝ))).mp (hlarge.trans_lt hhigh)
    refine ⟨Int.log 2 v - 52, ?_, ?_, .inr ?_⟩
    · push_cast at hlog
      omega
    · have hscale : ((53 : Nat) : Int) + (Int.log 2 v - 52) = Int.log 2 v + 1 := by omega
      rwa [two_pow_mul_zpow, hscale]
    · have hscale : ((52 : Nat) : Int) + (Int.log 2 v - 52) = Int.log 2 v := by omega
      rwa [two_pow_mul_zpow, hscale]

/-- Each number that is not negative has a pair within half a step of the pair.  It is one part in
    `2 ^ 53` away at most, or half the least step. -/
theorem exists_near {v : ℝ} (hv : 0 ≤ v) :
    ∃ m e, Canonical m e ∧ |(pairValue m e : ℝ) - v| ≤ 2 ^ e / 2 ∧
      |(pairValue m e : ℝ) - v| ≤ max (v * 2 ^ (-53 : Int)) (2 ^ (-1075 : Int)) := by
  obtain ⟨t, ht, hfew, hfull⟩ := exists_step v
  have hs : (0 : ℝ) < 2 ^ t := by positivity
  obtain ⟨r, hr⟩ : ∃ r, ⌊v / 2 ^ t + 1 / 2⌋₊ = r := ⟨_, rfl⟩
  have hnear := abs_floor_mul_sub_le hv hs
  rw [hr] at hnear
  have herror : (2 : ℝ) ^ t / 2 ≤ max (v * 2 ^ (-53 : Int)) (2 ^ (-1075 : Int)) := by
    rcases hfull with rfl | hfull
    · refine le_max_of_le_right (le_of_eq ?_)
      rw [div_eq_iff two_ne_zero, ← zpow_add_one₀ two_ne_zero]
      rfl
    · refine le_max_of_le_left ?_
      have hpart : (2 : ℝ) ^ (-53 : Int) = 1 / 2 ^ 53 := by norm_num
      rw [hpart]
      linarith
  have hr_le : r ≤ 2 ^ 53 := by
    have hquotient : v / 2 ^ t < 2 ^ 53 := (div_lt_iff₀ hs).mpr hfew
    rw [← hr, ← Nat.lt_succ_iff, Nat.floor_lt (by positivity)]
    push_cast
    linarith
  have hr_ge : t = -1074 ∨ 2 ^ 52 ≤ r := by
    refine hfull.imp_right fun hfull => ?_
    have hquotient : 2 ^ 52 ≤ v / 2 ^ t := (le_div_iff₀ hs).mpr hfull
    rw [← hr, Nat.le_floor_iff (by positivity)]
    push_cast
    linarith
  by_cases hlt : r < 2 ^ 53
  · have hvalue : (pairValue r t : ℝ) = r * 2 ^ t := by
      rw [pairValue]
      push_cast
      rfl
    rw [← hvalue] at hnear
    exact ⟨r, t, ⟨hlt, ht, hr_ge.symm⟩, hnear, hnear.trans herror⟩
  · -- Rounding up led to the next power of two.
    obtain rfl : r = 2 ^ 53 := Nat.le_antisymm hr_le (Nat.le_of_not_lt hlt)
    have hvalue : (pairValue (2 ^ 52) (t + 1) : ℝ) = ((2 ^ 53 : Nat) : ℝ) * 2 ^ t := by
      rw [pairValue]
      push_cast
      rw [zpow_add_one₀ two_ne_zero]
      ring
    rw [← hvalue] at hnear
    refine ⟨2 ^ 52, t + 1, ⟨by decide, by omega, .inl le_rfl⟩, hnear.trans ?_, hnear.trans herror⟩
    rw [zpow_add_one₀ two_ne_zero]
    linarith

/-! ## Errors of nearest pairs -/

section Nearest

variable {m : Nat} {e : Int} {v : ℚ}

/-- What is nearest to a number is as near to it as any other pair. -/
theorem Nearest.abs_sub_le (hnearest : Nearest m e v) (hv : 0 ≤ v) :
    |pairValue m e - v| ≤ max (v * 2 ^ (-53 : Int)) (2 ^ (-1075 : Int)) := by
  obtain ⟨n, a, hpair, -, hnear⟩ := exists_near (v := v) (by exact_mod_cast hv)
  refine (hnearest n a hpair).trans (Rat.cast_le (K := ℝ) |>.mp ?_)
  simp only [Rat.cast_abs, Rat.cast_sub, Rat.cast_max, Rat.cast_mul, Rat.cast_zpow, Rat.cast_ofNat]
  exact hnear

/-- A pair that is not below the least normal number differs from what it is nearest to by one part
    in `2 ^ 53` at most, in either direction. -/
theorem Nearest.mul_le_and_mul_le (hnearest : Nearest m e v) (hv : 0 ≤ v)
    (hnormal : 2 ^ (-1022 : Int) ≤ pairValue m e) :
    pairValue m e * (1 - 2 ^ (-53 : Int)) ≤ v ∧ v * (1 - 2 ^ (-53 : Int)) ≤ pairValue m e := by
  have hstep : (2 : ℚ) ^ (-1075 : Int) ≤ pairValue m e * 2 ^ (-53 : Int) := by
    calc (2 : ℚ) ^ (-1075 : Int) = 2 ^ (-1022 : Int) * 2 ^ (-53 : Int) := by
          rw [← zpow_add₀ two_ne_zero]
          rfl
      _ ≤ pairValue m e * 2 ^ (-53 : Int) := mul_le_mul_of_nonneg_right hnormal (by positivity)
  have hpair : 0 ≤ pairValue m e := pairValue_nonneg m e
  have hpart : (2 : ℚ) ^ (-53 : Int) = 1 / 2 ^ 53 := by norm_num
  rcases le_max_iff.mp (hnearest.abs_sub_le hv) with hnear | hnear
  · obtain ⟨hlow, hhigh⟩ := abs_le.mp hnear
    rw [hpart] at *
    constructor <;> linarith
  · obtain ⟨hlow, hhigh⟩ := abs_le.mp (hnear.trans hstep)
    rw [hpart] at *
    constructor <;> linarith

/-- By how much the logarithm of a number may change when the number is rounded once. -/
noncomputable def drift : ℝ :=
  -Real.log (1 - 2 ^ (-53 : Int) : ℚ)

theorem drift_bounds : 0 < drift ∧ drift ≤ 1 / (2 ^ 53 - 1) := by
  have hpart : ((1 - 2 ^ (-53 : Int) : ℚ) : ℝ) = (2 ^ 53 - 1) / 2 ^ 53 := by norm_num
  have hlog := Real.one_sub_inv_le_log_of_pos (x := (2 ^ 53 - 1) / 2 ^ 53) (by norm_num)
  rw [drift, hpart]
  constructor
  · exact neg_pos.mpr (Real.log_neg (by norm_num) (by norm_num))
  · norm_num at hlog ⊢
    linarith

theorem Nearest.abs_log_sub_le (hnearest : Nearest m e v) (hv : 0 < v)
    (hnormal : 2 ^ (-1022 : Int) ≤ pairValue m e) :
    |Real.log (pairValue m e) - Real.log v| ≤ drift := by
  obtain ⟨hlow, hhigh⟩ := hnearest.mul_le_and_mul_le hv.le hnormal
  have hpair : (0 : ℝ) < pairValue m e := by
    exact_mod_cast lt_of_lt_of_le (by positivity) hnormal
  have hv : (0 : ℝ) < v := by exact_mod_cast hv
  have hpart : (0 : ℝ) < (1 - 2 ^ (-53 : Int) : ℚ) := by norm_num
  have hlow : (pairValue m e : ℝ) * (1 - 2 ^ (-53 : Int) : ℚ) ≤ v := by exact_mod_cast hlow
  have hhigh : (v : ℝ) * (1 - 2 ^ (-53 : Int) : ℚ) ≤ pairValue m e := by exact_mod_cast hhigh
  have hlog_low := Real.log_le_log (mul_pos hpair hpart) hlow
  have hlog_high := Real.log_le_log (mul_pos hv hpart) hhigh
  rw [Real.log_mul hpair.ne' hpart.ne'] at hlog_low
  rw [Real.log_mul hv.ne' hpart.ne'] at hlog_high
  rw [drift, abs_le]
  constructor <;> linarith

end Nearest

end Annealing.Decimal
