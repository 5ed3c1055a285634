import Annealing.Proofs.Decimal.Fractions
import Annealing.Proofs.Decimal.Logarithms

/-! # Quotients of logarithms

The logarithm of a quotient, divided by that of a factor, is the number of times that the factor has
to be applied.  In doubles both logarithms are off by a unit in the last place, and the quotient is
rounded.  All this comes to less than one time, unless the factor is so near to one that a unit in
the last place counts.

* `Near` — how far off a logarithm may be.
* `Rounded` — how far off the quotient may be.
* `le_quotient` — a bound from below that takes in the errors of so many rounded products.
* `quotient_lt` — a bound from above.
-/

namespace Annealing.Decimal

/-! ## Numbers that are near -/

/-- One number is off another one by one part in `2 ^ 52` of itself at most, up to a number that is
    tiny against any logarithm of a fraction. -/
def Near (a r : ℝ) : Prop :=
  |a - r| ≤ |a| * (1 / 2 ^ 52 : ℚ) + (1 / 2 ^ 160 : ℚ)

theorem two_zpow_le {k : Int} (hk : k ≤ -160) : (2 : ℝ) ^ k ≤ 1 / 2 ^ 160 := by
  rw [one_div, ← zpow_natCast, ← zpow_neg]
  exact zpow_le_zpow_right₀ one_le_two hk

/-- Logarithms of magnitudes, taken without their minus sign. -/
theorem AccurateLog.near_neg {log : Float → Float} (hlog : AccurateLog log) {x : Float} {m : Nat}
    {e : Int} (hx : Magnitude x m e) (hm : m ≠ 0) :
    Near (-exact (log x)) (-Real.log (pairValue m e)) := by
  have hnear := (hlog.near hx hm).2
  have htiny := two_zpow_le (k := -1074) (by decide)
  have hpart : (2 : ℝ) ^ (-52 : Int) = 1 / 2 ^ 52 := by norm_num
  rw [hpart, mul_one_div] at hnear
  rw [Near, abs_neg, neg_sub_neg, abs_sub_comm]
  linarith

variable {a p pace way : ℝ}

/-- What is near to a number that is not too small is near to it relative to this number. -/
theorem Near.bounds (hnear : Near p pace) (hpace : 1 / 2 ^ 53 ≤ pace) :
    pace * (1 - 1 / 2 ^ 50) ≤ p ∧ p ≤ pace * (1 + 1 / 2 ^ 51) := by
  obtain ⟨hlow, hhigh⟩ := abs_le.mp hnear
  rcases le_total 0 p with hsign | hsign
  · rw [abs_of_nonneg hsign] at hlow hhigh
    norm_num at hlow hhigh hpace ⊢
    constructor <;> linarith
  · rw [abs_of_nonpos hsign] at hlow
    norm_num at hlow hpace
    linarith

/-- What is near to a number that is not negative. -/
theorem Near.bounds_of_nonneg (hnear : Near a way) (hway : 0 ≤ way) :
    way * (1 - 1 / 2 ^ 52) - 1 / 2 ^ 158 ≤ a ∧ a ≤ way * (1 + 1 / 2 ^ 51) + 1 / 2 ^ 159 ∧
      -1 / 2 ^ 158 ≤ a := by
  obtain ⟨hlow, hhigh⟩ := abs_le.mp hnear
  rcases le_total 0 a with hsign | hsign
  · rw [abs_of_nonneg hsign] at hlow hhigh
    norm_num at hlow hhigh ⊢
    refine ⟨?_, ?_, ?_⟩ <;> linarith
  · rw [abs_of_nonpos hsign] at hlow
    norm_num at hlow ⊢
    refine ⟨?_, ?_, ?_⟩ <;> linarith

/-- The logarithm of a double that is not above one is not too great. -/
theorem Magnitude.neg_log_bounds {x : Float} {m : Nat} {e : Int} (hx : Magnitude x m e)
    (hm : m ≠ 0) (hone : pairValue m e ≤ 1) :
    0 ≤ -Real.log (pairValue m e) ∧ -Real.log (pairValue m e) ≤ 1074 := by
  have hpos : (0 : ℝ) < pairValue m e := by exact_mod_cast pairValue_pos hm e
  have hlog := Real.log_nonpos hpos.le (by exact_mod_cast hone)
  have hlow := (hx.log_bounds hm).1
  have hlog_two : Real.log 2 < 1 := Real.log_two_lt_d9.trans (by norm_num)
  constructor <;> linarith

/-- The logarithm of a fraction is not too small. -/
theorem Fraction.le_neg_log {x : Float} {c : Nat} {b : Int} (hx : Fraction x c b) :
    1 - pairValue c b ≤ -Real.log (pairValue c b) ∧ 1 / 2 ^ 53 ≤ -Real.log (pairValue c b) := by
  have hpos : (0 : ℝ) < pairValue c b := by exact_mod_cast pairValue_pos hx.ne_zero b
  have hlog := Real.log_le_sub_one_of_pos hpos
  have hle := Rat.cast_le (K := ℝ) |>.mpr (hx.canonical.le_of_lt_one hx.lt_one)
  push_cast at hle
  norm_num at hle ⊢
  constructor <;> linarith

theorem abs_div_le (ha : Near a way) (hway : 0 ≤ way) (hway_le : way ≤ 1074) (hp : Near p pace)
    (hpace : 1 / 2 ^ 53 ≤ pace) : |a / p| ≤ 2 ^ 65 := by
  obtain ⟨-, ha_high, ha_low⟩ := ha.bounds_of_nonneg hway
  obtain ⟨hp_low, -⟩ := hp.bounds hpace
  have hp_large : 1 / 2 ^ 54 ≤ p := by
    norm_num at hpace hp_low ⊢
    linarith
  have hp_pos : 0 < p := lt_of_lt_of_le (by positivity) hp_large
  have ha_small : |a| ≤ 2 ^ 11 := by
    rw [abs_le]
    norm_num at ha_high ha_low ⊢
    constructor <;> linarith
  rw [abs_div, abs_of_pos hp_pos, div_le_iff₀ hp_pos]
  norm_num at ha_small hp_large ⊢
  linarith

/-! ## The errors together -/

/-- A quotient that is rounded once. -/
def Rounded (q v : ℝ) : Prop :=
  |q - v| ≤ |v| * (1 / 2 ^ 53 : ℚ) + (1 / 2 ^ 160 : ℚ)

theorem Rounded.of_max {q v : ℝ}
    (hnear : |q - v| ≤ max (|v| * 2 ^ (-53 : Int)) (2 ^ (-1075 : Int))) : Rounded q v := by
  have hpart : (2 : ℝ) ^ (-53 : Int) = 1 / 2 ^ 53 := by norm_num
  have hnonneg := abs_nonneg v
  rw [hpart, mul_one_div] at hnear
  refine hnear.trans (max_le ?_ ?_)
  · linarith
  · have htiny := two_zpow_le (k := -1075) (by decide)
    linarith

theorem Rounded.neg {q v : ℝ} (hq : Rounded q v) : Rounded (-q) (-v) := by
  rwa [Rounded, abs_neg, neg_sub_neg, abs_sub_comm]

/-- Rounding is of no account where there is room for it. -/
theorem Rounded.lt {q v k : ℝ} (hq : Rounded q v) (hk : |k| ≤ 2 ^ 49) (hv : k + 1 / 8 ≤ v) :
    k < q := by
  have hlow := (abs_le.mp hq).1
  obtain ⟨hk_low, hk_high⟩ := abs_le.mp hk
  rcases le_total 0 v with hsign | hsign
  · rw [abs_of_nonneg hsign] at hlow
    norm_num at hlow hk_high
    linarith
  · rw [abs_of_nonpos hsign] at hlow
    norm_num at hlow hk_low
    linarith

/-- The computed quotient is above `n - 2`, if the way is that of `n` steps, up to the drift of each
    of them and of three more, and if the factor is not too near to one for so many steps. -/
theorem le_quotient {n : Nat} (hn : 1 ≤ n) (hpace : 1 / 2 ^ 53 ≤ pace) (hway : 0 ≤ way)
    (hp : Near p pace) (ha : Near a way) {q : ℝ} (hq : Rounded q (a / p))
    (hsteps : (n - 1) * (pace - drift) ≤ way + 4 * drift)
    (hfew : n ≤ 2 ^ 49 * min pace 1) : (n : ℝ) - 2 < q := by
  obtain ⟨hp_low, hp_high⟩ := hp.bounds hpace
  obtain ⟨ha_low, -, ha_nonneg⟩ := ha.bounds_of_nonneg hway
  obtain ⟨hdrift_pos, hdrift⟩ := drift_bounds
  have hp_pos : 0 < p := by
    norm_num at hpace hp_low
    linarith
  rcases hn.eq_or_lt with rfl | htwo
  -- One step: the quotient need not be positive, but it is near to zero then.
  · have hv : -1 / 2 ≤ a / p := by
      rw [le_div_iff₀ hp_pos]
      norm_num at hpace hp_low ha_nonneg ⊢
      linarith
    apply hq.lt
    · norm_num
    · norm_num
      linarith
  · have hn_two : (2 : ℝ) ≤ n := by exact_mod_cast htwo
    have hfew_pace : (n : ℝ) ≤ 2 ^ 49 * pace :=
      hfew.trans (mul_le_mul_of_nonneg_left (min_le_left _ _) (by positivity))
    have hfew_one : (n : ℝ) ≤ 2 ^ 49 := by
      simpa using hfew.trans (mul_le_mul_of_nonneg_left (min_le_right pace 1) (by positivity))
    have hpace_pos : 0 < pace := lt_of_lt_of_le (by positivity) hpace
    have hscaled := mul_le_mul_of_nonneg_right hfew_one hpace_pos.le
    have hdrifts : (n + 3) * drift ≤ 0.158 * pace := by
      have hcount := mul_le_mul_of_nonneg_left hdrift (by positivity : (0 : ℝ) ≤ n + 3)
      norm_num at hcount hfew_pace ⊢
      linarith
    have hway_low : (n - 1.158) * pace ≤ way := by linarith
    have ha_low : (n - 1.284) * pace ≤ a := by
      norm_num at ha_low hscaled hway_low hpace ⊢
      linarith
    have hv : n - 1.7 ≤ a / p := by
      rw [le_div_iff₀ hp_pos]
      have hcount := mul_le_mul_of_nonneg_left hp_high (by linarith : (0 : ℝ) ≤ n - 1.7)
      norm_num at hcount ha_low hscaled ⊢
      linarith
    apply hq.lt
    · rw [abs_of_nonneg (by linarith)]
      linarith
    · norm_num at hv ⊢
      linarith

/-- The computed quotient is not much above that of the two numbers. -/
theorem quotient_lt (hpace : 1 / 2 ^ 53 ≤ pace) (hway : 0 ≤ way) (hp : Near p pace)
    (ha : Near a way) {q : ℝ} (hq : Rounded q (a / p)) {k : ℝ} (hle : way ≤ k * pace) (hk : 0 ≤ k)
    (hfew : k ≤ 2 ^ 40) : q < k + 1 / 2 := by
  obtain ⟨hp_low, -⟩ := hp.bounds hpace
  obtain ⟨-, ha_high, -⟩ := ha.bounds_of_nonneg hway
  have hpace_pos : 0 < pace := lt_of_lt_of_le (by positivity) hpace
  have hp_pos : 0 < p := by
    norm_num at hp_low
    linarith
  have hv : a / p ≤ k + 1 / 4 := by
    rw [div_le_iff₀ hp_pos]
    have hscaled := mul_le_mul_of_nonneg_right hfew hpace_pos.le
    have hcount := mul_le_mul_of_nonneg_left hp_low (by linarith : 0 ≤ k + 1 / 4)
    norm_num at ha_high hpace hscaled hcount ⊢
    linarith
  refine neg_lt_neg_iff.mp (hq.neg.lt ?_ (by linarith))
  rw [abs_neg, abs_of_nonneg (by linarith)]
  linarith

end Annealing.Decimal
