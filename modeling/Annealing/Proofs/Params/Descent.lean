import Annealing.Proofs.Anneal.Course
import Annealing.Proofs.Decimal.Logarithms
import Annealing.Proofs.Decimal.Quotients
import Annealing.Proofs.Params.Halting

/-! # The descent of rounded temperatures

Each cooling step lowers the logarithm of the temperature by that of the factor, up to what rounding
the product costs.  So the number of steps is bounded by the way down from the initial to the final
temperature: the errors only come to as many drifts as there are steps.

* `Regular.hotAfter_zero`, `Regular.hotAfter_succ` — the temperatures of the schedule.
* `Regular.exists_start` — what is known of parameters whose schedule makes a step and ends.
* `Regular.log_temperature_le` — the logarithms of the temperatures.
* `Regular.steps_mul_le` — the number of steps.
-/

namespace Annealing.Params.Regular

open Decimal (Fraction Magnitude Nearest drift pairValue pairValue_pos)

variable {params : Params} {initial final : Number} {factor : Float} {start : Float}

/-! ## Temperatures -/

/-- After the first step the temperatures are the rounded products of the initial double. -/
theorem cooled_succ (hregular : params.Regular initial final factor)
    (hstart : initial.toFloat? = .ok start) (k : Nat) :
    params.schedule.cooled (k + 1) = .ok (.ofValue (.float ((· * factor)^[k + 1] start))) := by
  induction k with
  | zero =>
    change params.schedule.cool (.ofValue params.initialTemperature) = _
    rw [hregular.cool_eq hregular.initial_eq, hstart]
    rfl
  | succ k ih =>
    rw [Schedule.cooled, ih, Function.iterate_succ_apply' _ (k + 1)]
    exact hregular.cool_float _

theorem hotAfter_zero (hregular : params.Regular initial final factor) :
    params.schedule.hotAfter 0 = .ok (final.lt initial) :=
  hregular.hot_eq hregular.initial_eq

theorem hotAfter_succ (hregular : params.Regular initial final factor)
    (hstart : initial.toFloat? = .ok start) (k : Nat) : params.schedule.hotAfter (k + 1) =
      .ok (final.lt (.float ((· * factor)^[k + 1] start))) := by
  rw [Schedule.hotAfter_of_cooled (hregular.cooled_succ hstart k)]
  exact hregular.hot_float _

/-- Infinity stays infinity. -/
theorem unpack_iterate_infinity (hregular : params.Regular initial final factor)
    (hstart : start.toModel.unpack = .infinity .positive) (k : Nat) :
    ((· * factor)^[k] start).toModel.unpack = .infinity .positive := by
  obtain ⟨n, b, hfraction⟩ := hregular.exists_fraction
  induction k with
  | zero => exact hstart
  | succ k ih =>
    rw [Function.iterate_succ_apply']
    exact Decimal.infinity_mul ih hfraction

/-! ## Schedules that make a step and end -/

variable {limit n : Nat}

theorem one_le_steps (hregular : params.Regular initial final factor)
    (hends : params.schedule.countSteps limit = .ok (some n)) (hhot : final.lt initial = true) :
    1 ≤ n := by
  obtain ⟨-, -, hcold⟩ := Schedule.countSteps_eq_some_iff.mp hends
  by_contra hnone
  obtain rfl : n = 0 := by omega
  rw [hregular.hotAfter_zero, hhot] at hcold
  cases hcold

theorem steps_eq_zero (hregular : params.Regular initial final factor) {limit n : Nat}
    (hends : params.schedule.countSteps limit = .ok (some n)) (hcold : final.lt initial = false) :
    n = 0 := by
  obtain ⟨-, hwarm, -⟩ := Schedule.countSteps_eq_some_iff.mp hends
  by_contra hsteps
  have hhot := hwarm 0 (Nat.pos_of_ne_zero hsteps)
  rw [hregular.hotAfter_zero, hcold] at hhot
  cases hhot

/-- Such a schedule has converted the initial temperature. -/
theorem exists_start (hregular : params.Regular initial final factor)
    (hends : params.schedule.countSteps limit = .ok (some n)) (hhot : final.lt initial = true) :
    ∃ start, initial.toFloat? = .ok start := by
  obtain ⟨-, hwarm, hcold⟩ := Schedule.countSteps_eq_some_iff.mp hends
  have hn := hregular.one_le_steps hends hhot
  cases hstart : initial.toFloat? with
  | ok start => exact ⟨start, rfl⟩
  | error fault =>
    have hfails : params.schedule.hotAfter 1 = .error fault := by
      change (params.schedule.cool (.ofValue params.initialTemperature)).bind _ = _
      rw [hregular.cool_eq hregular.initial_eq, hstart]
      rfl
    rcases hn.lt_or_eq with hlt | rfl
    · cases hfails.symm.trans (hwarm 1 hlt)
    · cases hfails.symm.trans hcold

/-- Its temperatures are finite, since it would not end otherwise. -/
theorem exists_values (hregular : params.Regular initial final factor)
    (hends : params.schedule.countSteps limit = .ok (some n)) (hhot : final.lt initial = true) :
    ∃ v w : ℚ, final.HasValue v ∧ initial.HasValue w ∧ 0 < v ∧ v < w := by
  obtain ⟨v, hfinal, hpos⟩ := exists_value_of_pos hregular.final_pos
  obtain ⟨w, hinitial, -⟩ := exists_value_of_pos hregular.initial_pos
  have hlt := (hfinal.lt_iff hinitial).mp hhot
  have hw : w ≠ ⊤ := by
    rintro rfl
    cases hinitial with
    | float hx =>
      rename_i x
      cases hx with
      | infinite hx =>
        obtain ⟨-, -, hcold⟩ := Schedule.countSteps_eq_some_iff.mp hends
        obtain ⟨k, rfl⟩ := Nat.exists_eq_add_of_le' (hregular.one_le_steps hends hhot)
        have hhottest : final.lt (.float ((· * factor)^[k + 1] x)) = true := by
          rw [hfinal.lt_iff (.float (.infinite (hregular.unpack_iterate_infinity hx (k + 1))))]
          exact hlt
        rw [hregular.hotAfter_succ rfl, hhottest] at hcold
        cases hcold
  obtain ⟨v, rfl⟩ := WithTop.ne_top_iff_exists.mp hlt.ne_top
  obtain ⟨w, rfl⟩ := WithTop.ne_top_iff_exists.mp hw
  exact ⟨v, w, hfinal, hinitial, by exact_mod_cast hpos, WithTop.coe_lt_coe.mp hlt⟩

/-! ## The way down -/

/-- While the temperatures are hot, each step lowers the logarithm by that of the factor, up to one
    drift.  Temperatures above one that is not below the least normal number are not below it
    either. -/
theorem log_temperature_le (hregular : params.Regular initial final factor)
    (hstart : initial.toFloat? = .ok start) {m c : Nat} {e b : Int}
    (hmagnitude : Magnitude start m e) (hm : m ≠ 0) (hfraction : Fraction factor c b) {v : ℚ}
    (hfinal : final.HasValue v) (hnormal : 2 ^ (-1022 : Int) ≤ v) (k : Nat)
    (hwarm : ∀ j, 1 ≤ j → j ≤ k → params.schedule.hotAfter j = .ok true) :
    ∃ p d, Magnitude ((· * factor)^[k] start) p d ∧ p ≠ 0 ∧ Real.log (pairValue p d) ≤
      Real.log (pairValue m e) - k * (-Real.log (pairValue c b) - drift) := by
  induction k with
  | zero => exact ⟨m, e, hmagnitude, hm, by simp⟩
  | succ k ih =>
    obtain ⟨p, d, hproduct, hp, hlog⟩ := ih fun j hj hjk => hwarm j hj (by omega)
    obtain ⟨q, f, hnext, hnearest⟩ := hproduct.exists_mul_fraction hfraction
    have hhot := hwarm (k + 1) (by omega) le_rfl
    rw [hregular.hotAfter_succ hstart, Function.iterate_succ_apply', Except.ok.injEq,
      hfinal.lt_iff (.float (.finite hnext)), WithTop.coe_lt_coe] at hhot
    have hpos : 0 < pairValue p d * pairValue c b :=
      mul_pos (pairValue_pos hp d) (pairValue_pos hfraction.ne_zero b)
    have hdrift := (abs_le.mp (hnearest.abs_log_sub_le hpos (hnormal.trans hhot.le))).2
    have hsplit : Real.log ((pairValue p d * pairValue c b : ℚ) : ℝ) =
        Real.log (pairValue p d) + Real.log (pairValue c b) := by
      rw [Rat.cast_mul]
      exact Real.log_mul (by exact_mod_cast (pairValue_pos hp d).ne')
        (by exact_mod_cast (pairValue_pos hfraction.ne_zero b).ne')
    rw [Function.iterate_succ_apply']
    refine ⟨q, f, hnext, ?_, ?_⟩
    · rintro rfl
      rw [Decimal.pairValue_zero] at hhot
      exact absurd (hnormal.trans hhot.le) (not_le.mpr (by positivity))
    · rw [hsplit] at hdrift
      push_cast
      linarith

/-- The last temperature but one is still hot.  So all steps but one lie on the way from the initial
    down to the final temperature, which is not longer than that through all doubles. -/
theorem steps_mul_le (hregular : params.Regular initial final factor)
    (hends : params.schedule.countSteps limit = .ok (some n)) {v w : ℚ}
    (hfinal : final.HasValue v) (hinitial : initial.HasValue w) (hlt : v < w)
    (hnormal : 2 ^ (-1022 : Int) ≤ v) {c : Nat} {b : Int} (hfraction : Fraction factor c b) :
    (n - 1) * (-Real.log (pairValue c b) - drift) ≤ Real.log w - Real.log v + drift ∧
      Real.log w - Real.log v ≤ 2046 * Real.log 2 + drift := by
  have hhot : final.lt initial = true := (hfinal.lt_iff hinitial).mpr (WithTop.coe_lt_coe.mpr hlt)
  have hv : 0 < v := lt_of_lt_of_le (by positivity) hnormal
  have hw : 0 < w := hv.trans hlt
  obtain ⟨start, hstart⟩ := hregular.exists_start hends hhot
  obtain ⟨m, e, hmagnitude, hnearest, hm⟩ := hinitial.exists_nearest hw.le hstart
  have hstart_log := abs_le.mp
    (hnearest.abs_log_sub_le hw (hnearest.normal (hnormal.trans hlt.le)))
  have hdrift := Decimal.drift_bounds.1
  have hfinal_pos : (0 : ℝ) < v := by exact_mod_cast hv
  refine ⟨?_, ?_⟩
  · obtain ⟨-, hwarm, -⟩ := Schedule.countSteps_eq_some_iff.mp hends
    obtain ⟨k, rfl⟩ := Nat.exists_eq_add_of_le' (hregular.one_le_steps hends hhot)
    obtain ⟨p, d, hproduct, hp, hlog⟩ := hregular.log_temperature_le hstart hmagnitude (hm hw)
      hfraction hfinal hnormal k fun j _ hj => hwarm j (by omega)
    have hcount : ((k + 1 : Nat) : ℝ) - 1 = k := by push_cast; ring
    rw [hcount]
    cases k with
    | zero =>
      have hlogs := Real.log_le_log hfinal_pos (Rat.cast_le (K := ℝ) |>.mpr hlt.le)
      simp only [Nat.cast_zero, zero_mul]
      linarith
    | succ k =>
      have hlast := hwarm (k + 1) (by omega)
      rw [hregular.hotAfter_succ hstart, Except.ok.injEq,
        hfinal.lt_iff (.float (.finite hproduct)), WithTop.coe_lt_coe] at hlast
      have hlogs := Real.log_le_log hfinal_pos (Rat.cast_le (K := ℝ) |>.mpr hlast.le)
      linarith
  · have hgreatest := (hmagnitude.log_bounds (hm hw)).2
    have hpos : (0 : ℚ) < 2 ^ (-1022 : Int) := by positivity
    have hleast := Real.log_le_log (by exact_mod_cast hpos) (Rat.cast_le (K := ℝ) |>.mpr hnormal)
    rw [Decimal.log_two_zpow] at hleast
    push_cast at hleast
    linarith

end Annealing.Params.Regular
