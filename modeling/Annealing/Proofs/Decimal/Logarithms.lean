import Annealing.Proofs.Decimal.Errors
import Annealing.Proofs.Decimal.Exact

/-! # Logarithms of doubles

The logarithm is a function that comes from outside.  All that is asked of it here is that its
results are off by one unit in the last place at most.

* `AccurateLog` — the logarithms that are so accurate.
* `AccurateLog.near` — how far off that is, relative to the result.
* `accurateLog_nearestLog` — there is one: the logarithm that is rounded to a nearest double.
-/

namespace Annealing.Decimal

/-- The unit in the last place of a finite double: what its significand counts. -/
def ulp (x : Float) : ℚ :=
  match x.toModel.unpack with
  | .finite _ _ e _ => 2 ^ e
  | _ => 2 ^ (-1074 : Int)

/-- A logarithm that is off by one unit in the last place at most, where the number is positive and
    finite. -/
def AccurateLog (log : Float → Float) : Prop :=
  ∀ x : Float, 0 < x → x.isFinite = true →
    (log x).isFinite = true ∧ |(exact (log x) : ℝ) - Real.log (exact x)| ≤ ulp (log x)

/-! ## Units in the last place -/

open Float.Model.UnpackedFloat (Sign)

theorem ulp_of_unpack {x : Float} {s : Sign} {m : Nat} {e : Int} (hpair : Canonical m e)
    (hunpack : x.toModel.unpack = ofPair s m e) : ulp x = 2 ^ e := by
  by_cases hzero : m = 0
  · have he : e = -1074 := hpair.full.resolve_left (by omega)
    rw [ulp, hunpack, ofPair, dif_pos hzero, he]
  · rw [ulp, hunpack, ofPair, dif_neg hzero]

theorem ulp_pos (x : Float) : 0 < ulp x := by
  unfold ulp
  split <;> positivity

/-- The unit is one part in `2 ^ 52` of the double at most, or it is the least one. -/
theorem ulp_le {x : Float} (hx : x.isFinite = true) :
    ulp x ≤ |exact x| * 2 ^ (-52 : Int) + 2 ^ (-1074 : Int) := by
  obtain ⟨s, m, e, hpair, -, hunpack⟩ := exists_pair_of_isFinite hx
  rw [ulp_of_unpack hpair hunpack, exact_of_unpack hunpack, abs_mul, abs_signFactor, one_mul,
    abs_of_nonneg (pairValue_nonneg m e)]
  have hpos : (0 : ℚ) < 2 ^ (-1074 : Int) := by positivity
  rcases hpair.full with hfull | rfl
  · have hle : (2 ^ 52 : ℚ) ≤ m := by exact_mod_cast hfull
    have hone : (1 : ℚ) ≤ m * 2 ^ (-52 : Int) := by
      have hpart : (2 : ℚ) ^ (-52 : Int) = 1 / 2 ^ 52 := by norm_num
      rw [hpart]
      linarith
    have hscaled := mul_le_mul_of_nonneg_right hone (by positivity : (0 : ℚ) ≤ 2 ^ e)
    rw [pairValue]
    linarith
  · have hnonneg := mul_nonneg (pairValue_nonneg m (-1074))
      (by positivity : (0 : ℚ) ≤ 2 ^ (-52 : Int))
    linarith

/-- Positive finite doubles are magnitudes. -/
theorem exists_magnitude_of_pos {x : Float} (hpos : 0 < x) (hx : x.isFinite = true) :
    ∃ m e, Magnitude x m e ∧ m ≠ 0 := by
  have hzero : HasValue 0 ((0 : ℚ) : WithTop ℚ) := by
    have hmagnitude : Magnitude 0 0 (-1074) := ⟨canonical_zero, by decide, rfl⟩
    simpa using HasValue.finite hmagnitude
  obtain ⟨v, hv⟩ := hzero.exists_of_lt hpos
  obtain ⟨q, rfl⟩ := WithTop.ne_top_iff_exists.mp (hv.ne_top_of_isFinite hx)
  have hlt := (hzero.lt_iff hv).mp hpos
  obtain ⟨m, e, hmagnitude, rfl⟩ := hv.exists_magnitude
  refine ⟨m, e, hmagnitude, ?_⟩
  rintro rfl
  simp at hlt

theorem Magnitude.pos_iff {x : Float} {m : Nat} {e : Int} (hx : Magnitude x m e) :
    0 < x ↔ m ≠ 0 := by
  have hzero : Magnitude 0 0 (-1074) := ⟨canonical_zero, by decide, rfl⟩
  rw [hzero.lt_iff hx, pairValue_zero]
  constructor
  · rintro hlt rfl
    exact hlt.ne' (pairValue_zero e)
  · exact fun hm => pairValue_pos hm e

/-- How far the logarithm of a magnitude is off. -/
theorem AccurateLog.near {log : Float → Float} (hlog : AccurateLog log) {x : Float} {m : Nat}
    {e : Int} (hx : Magnitude x m e) (hm : m ≠ 0) :
    (log x).isFinite = true ∧ |(exact (log x) : ℝ) - Real.log (pairValue m e)| ≤
      |(exact (log x) : ℝ)| * 2 ^ (-52 : Int) + 2 ^ (-1074 : Int) := by
  obtain ⟨hfinite, hnear⟩ := hlog x (hx.pos_iff.mpr hm) hx.isFinite
  refine ⟨hfinite, ?_⟩
  have hulp := Rat.cast_le (K := ℝ) |>.mpr (ulp_le hfinite)
  simp only [Rat.cast_add, Rat.cast_mul, Rat.cast_abs, Rat.cast_zpow, Rat.cast_ofNat] at hulp
  rw [hx.exact_eq] at hnear
  exact hnear.trans hulp

/-! ## A logarithm that is rounded to nearest -/

/-- Positive doubles lie between two powers of two. -/
theorem Magnitude.bounds {x : Float} {m : Nat} {e : Int} (hx : Magnitude x m e) (hm : m ≠ 0) :
    2 ^ (-1074 : Int) ≤ pairValue m e ∧ pairValue m e < 2 ^ (1024 : Int) := by
  have hone : (1 : ℚ) ≤ m := by exact_mod_cast Nat.one_le_iff_ne_zero.mpr hm
  have hlt : (m : ℚ) < 2 ^ 53 := by exact_mod_cast hx.canonical.lt
  constructor
  · calc (2 : ℚ) ^ (-1074 : Int) ≤ 2 ^ e := zpow_le_zpow_right₀ one_le_two hx.canonical.le
      _ ≤ m * 2 ^ e := le_mul_of_one_le_left (by positivity) hone
  · calc pairValue m e < 2 ^ 53 * 2 ^ e := mul_lt_mul_of_pos_right hlt (by positivity)
      _ ≤ 2 ^ 53 * 2 ^ (971 : Int) :=
        mul_le_mul_of_nonneg_left (zpow_le_zpow_right₀ one_le_two hx.bounded) (by positivity)
      _ = 2 ^ (1024 : Int) := by
        rw [← zpow_natCast, ← zpow_add₀ two_ne_zero]
        rfl

theorem log_two_zpow (k : Int) : Real.log ((2 ^ k : ℚ) : ℝ) = k * Real.log 2 := by
  rw [Rat.cast_zpow, Rat.cast_ofNat, Real.log_zpow]

theorem Magnitude.log_bounds {x : Float} {m : Nat} {e : Int} (hx : Magnitude x m e) (hm : m ≠ 0) :
    -1074 * Real.log 2 ≤ Real.log (pairValue m e) ∧
      Real.log (pairValue m e) ≤ 1024 * Real.log 2 := by
  obtain ⟨hlow, hhigh⟩ := hx.bounds hm
  have hpos : (0 : ℚ) < 2 ^ (-1074 : Int) := by positivity
  have hleast := Real.log_le_log (by exact_mod_cast hpos) (Rat.cast_le (K := ℝ) |>.mpr hlow)
  have hgreatest := Real.log_le_log (by exact_mod_cast hpos.trans_le hlow)
    (Rat.cast_le (K := ℝ) |>.mpr hhigh.le)
  rw [log_two_zpow] at hleast hgreatest
  push_cast at hleast hgreatest
  exact ⟨hleast, hgreatest⟩

/-- A real number that is not too great has a double within half a unit in the last place. -/
theorem exists_double_near {r : ℝ} (hr : |r| ≤ 1074) :
    ∃ y : Float, y.isFinite = true ∧ |(exact y : ℝ) - r| ≤ (ulp y / 2 : ℚ) := by
  obtain ⟨m, e, hpair, hhalf, hnear⟩ := exists_near (abs_nonneg r)
  have he : e ≤ 971 := by
    by_contra hbeyond
    have hfull : (2 ^ 52 : ℚ) ≤ m := by exact_mod_cast hpair.full.resolve_right (by omega)
    have hstep : (1 : ℚ) ≤ 2 ^ e := one_le_zpow₀ one_le_two (by omega)
    have hlarge : (2 ^ 52 : ℚ) ≤ pairValue m e := by
      calc (2 ^ 52 : ℚ) = 2 ^ 52 * 1 := (mul_one _).symm
        _ ≤ m * 2 ^ e := mul_le_mul hfull hstep zero_le_one (by positivity)
    have hlarge : (2 ^ 52 : ℝ) ≤ pairValue m e := by exact_mod_cast hlarge
    have hsmall : (2 : ℝ) ^ (-1075 : Int) ≤ 1 := zpow_le_one_of_nonpos₀ one_le_two (by decide)
    have hpart : (2 : ℝ) ^ (-53 : Int) ≤ 1 := zpow_le_one_of_nonpos₀ one_le_two (by decide)
    have hscaled := mul_le_mul_of_nonneg_left hpart (abs_nonneg r)
    have herror := hnear.trans (max_le (by linarith) (by linarith) : _ ≤ (1074 : ℝ))
    have hclose := (le_abs_self _).trans herror
    norm_num at hlarge
    linarith
  obtain ⟨s, hs⟩ : ∃ s : Sign, (signFactor s : ℝ) * |r| = r := by
    rcases le_total 0 r with hsign | hsign
    · exact ⟨.positive, by simp [signFactor, abs_of_nonneg hsign]⟩
    · exact ⟨.negative, by simp [signFactor, abs_of_nonpos hsign]⟩
  have hunpack : (Float.ofModel (.pack (ofPair s m e))).toModel.unpack = ofPair s m e :=
    unpack_pack_ofPair s hpair he
  refine ⟨_, isFinite_of_unpack hunpack, ?_⟩
  have hfactor : |(signFactor s : ℝ)| = 1 := by exact_mod_cast abs_signFactor s
  rw [ulp_of_unpack hpair hunpack, exact_of_unpack hunpack]
  calc |((signFactor s * pairValue m e : ℚ) : ℝ) - r|
      = |(signFactor s : ℝ) * (pairValue m e - |r|)| := by
        rw [mul_sub, hs]
        push_cast
        rfl
    _ = abs ((pairValue m e : ℝ) - |r|) := by rw [abs_mul, hfactor, one_mul]
    _ ≤ (2 ^ e / 2 : ℚ) := by
        push_cast
        exact hhalf

/-- The logarithm that is rounded to a nearest double. -/
noncomputable def nearestLog (x : Float) : Float := by
  classical
  exact if h : ∃ y : Float, y.isFinite = true ∧
      |(exact y : ℝ) - Real.log (exact x)| ≤ (ulp y / 2 : ℚ) then h.choose else x

theorem accurateLog_nearestLog : AccurateLog nearestLog := by
  intro x hpos hx
  obtain ⟨m, e, hmagnitude, hm⟩ := exists_magnitude_of_pos hpos hx
  obtain ⟨hlow, hhigh⟩ := hmagnitude.log_bounds hm
  have hlog_pos : 0 < Real.log 2 := Real.log_pos one_lt_two
  have hlog_two : Real.log 2 < 1 := Real.log_two_lt_d9.trans (by norm_num)
  have hbound : |Real.log (exact x)| ≤ 1074 := by
    rw [hmagnitude.exact_eq, abs_le]
    constructor <;> linarith
  have hexists := exists_double_near hbound
  have hchosen : nearestLog x = hexists.choose := by
    unfold nearestLog
    exact dif_pos hexists
  obtain ⟨hfinite, hnear⟩ := hexists.choose_spec
  rw [hchosen]
  exact ⟨hfinite, hnear.trans (Rat.cast_le.mpr (half_le_self (ulp_pos _).le))⟩

end Annealing.Decimal
