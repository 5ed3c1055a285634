import Annealing.Fault
import Annealing.Proofs.Anneal.Course
import Mathlib.Analysis.SpecialFunctions.Log.Basic

/-! # Cooling over the real numbers

Where products are exact and the logarithm is the real one, the closed form of the number of cooling
steps is no bound but a count: it gives one step more than there are.

* `ExactCooling` — real parameters in the domains that are checked.
* `mul_pow_le_iff` — which steps lead to the final temperature or below it, through logarithms.
* `countSteps_eq`, `stepBound_eq` — the count, and the closed form.
* `steps_of_exact` — both together.
-/

namespace Annealing

/-- Real parameters of a cooling schedule, in the domains that are checked. -/
structure ExactCooling where
  initial : ℝ
  factor : ℝ
  final : ℝ
  initial_pos : 0 < initial
  final_pos : 0 < final
  factor_pos : 0 < factor
  factor_lt_one : factor < 1

/-- Real numbers with their own logarithm, which only positive numbers have. -/
noncomputable def Logarithmic.real : Logarithmic ℝ Fault where
  le a b := .ok (decide (a ≤ b))
  div a b := if b = 0 then .error .divisionByZero else .ok (a / b)
  log a := if 0 < a then .ok (Real.log a) else .error .unusable
  ceil a := .ok ⌈a⌉

namespace ExactCooling

variable (cooling : ExactCooling)

noncomputable def schedule : Schedule ℝ Fault where
  initial := cooling.initial
  hot temperature := .ok (decide (cooling.final < temperature))
  cool temperature := .ok (temperature * cooling.factor)

noncomputable def stepBound : Except Fault Int :=
  Logarithmic.real.stepBound cooling.initial cooling.factor cooling.final

/-! ## Temperatures -/

/-- The temperature after some cooling steps. -/
theorem cooled_eq (steps : Nat) :
    cooling.schedule.cooled steps = .ok (cooling.initial * cooling.factor ^ steps) := by
  induction steps with
  | zero => simp [Schedule.cooled, schedule]
  | succ steps ih =>
    rw [Schedule.cooled, ih, pow_succ, ← mul_assoc]
    rfl

theorem hotAfter_eq (steps : Nat) : cooling.schedule.hotAfter steps =
    .ok (decide (cooling.final < cooling.initial * cooling.factor ^ steps)) :=
  Schedule.hotAfter_of_cooled (cooling.cooled_eq steps)

theorem strictAnti_temperatures :
    StrictAnti fun steps => cooling.initial * cooling.factor ^ steps :=
  fun _ _ hlt => mul_lt_mul_of_pos_left
    (pow_lt_pow_right_of_lt_one₀ cooling.factor_pos cooling.factor_lt_one hlt) cooling.initial_pos

/-! ## Steps -/

/-- How many steps it takes, as a real number. -/
noncomputable def span : ℝ :=
  Real.log (cooling.final / cooling.initial) / Real.log cooling.factor

/-- Some steps lead to the final temperature or below it if they are no less than the span.  The
    logarithm of the factor is negative, so dividing by it turns the inequality around. -/
theorem mul_pow_le_iff (steps : Nat) :
    cooling.initial * cooling.factor ^ steps ≤ cooling.final ↔ cooling.span ≤ steps := by
  have hquotient : 0 < cooling.final / cooling.initial :=
    div_pos cooling.final_pos cooling.initial_pos
  have hlog : Real.log cooling.factor < 0 :=
    Real.log_neg cooling.factor_pos cooling.factor_lt_one
  calc cooling.initial * cooling.factor ^ steps ≤ cooling.final
      ↔ cooling.factor ^ steps ≤ cooling.final / cooling.initial :=
        (le_div_iff₀' cooling.initial_pos).symm
    _ ↔ steps * Real.log cooling.factor ≤ Real.log (cooling.final / cooling.initial) := by
        rw [← Real.log_pow, Real.log_le_log_iff (pow_pos cooling.factor_pos steps) hquotient]
    _ ↔ cooling.span ≤ steps := (div_le_iff_of_neg hlog).symm

/-- The least number of steps that lead to the final temperature or below it. -/
noncomputable def steps : Nat :=
  ⌈cooling.span⌉₊

theorem steps_le_iff {k : Nat} :
    cooling.steps ≤ k ↔ cooling.initial * cooling.factor ^ k ≤ cooling.final := by
  rw [steps, Nat.ceil_le, mul_pow_le_iff]

theorem isLeast_steps :
    IsLeast {k : Nat | cooling.initial * cooling.factor ^ k ≤ cooling.final} cooling.steps :=
  ⟨cooling.steps_le_iff.mp le_rfl, fun _ => cooling.steps_le_iff.mpr⟩

/-- The loop makes just these steps. -/
theorem countSteps_eq {limit : Nat} (hlimit : cooling.steps < limit) :
    cooling.schedule.countSteps limit = .ok (some cooling.steps) := by
  refine Schedule.countSteps_eq_some_iff.mpr ⟨hlimit, fun k hk => ?_, ?_⟩
  · have hhot := cooling.steps_le_iff.not.mp (not_le.mpr hk)
    rw [hotAfter_eq, decide_eq_true (not_le.mp hhot)]
  · have hcold := cooling.steps_le_iff.mp le_rfl
    rw [hotAfter_eq, decide_eq_false (not_lt.mpr hcold)]

/-! ## The closed form -/

theorem stepBound_of_le (hle : cooling.initial ≤ cooling.final) : cooling.stepBound = .ok 0 := by
  simp [stepBound, Logarithmic.stepBound, Logarithmic.real, hle, bind, Except.bind, pure,
    Except.pure]

/-- Neither a division nor a logarithm fails, and the ceiling of the span is the number of steps. -/
theorem stepBound_of_lt (hlt : cooling.final < cooling.initial) :
    cooling.stepBound = .ok (cooling.steps + 1) := by
  have hquotient : 0 < cooling.final / cooling.initial :=
    div_pos cooling.final_pos cooling.initial_pos
  have hlog : Real.log cooling.factor < 0 :=
    Real.log_neg cooling.factor_pos cooling.factor_lt_one
  have hspan : 0 ≤ cooling.span :=
    div_nonneg_of_nonpos
      (Real.log_nonpos hquotient.le ((div_le_one cooling.initial_pos).mpr hlt.le)) hlog.le
  have hceil : (cooling.steps : Int) = ⌈cooling.span⌉ := Int.natCast_ceil_eq_ceil hspan
  rw [hceil]
  simp [stepBound, Logarithmic.stepBound, Logarithmic.real, not_le.mpr hlt,
    cooling.initial_pos.ne', hquotient, cooling.factor_pos, hlog.ne, span, bind, Except.bind, pure,
    Except.pure]

/-- With real parameters in the domains that are checked, exact products and the real logarithm,
    the cooling loop ends.  It makes the least number of steps that lead to the final temperature or
    below it, through temperatures that fall with each step.  The closed form gives one step more,
    or none where the loop makes none since it does not start above the final temperature. -/
theorem steps_of_exact : ∃ n : Nat,
    (∀ limit > n, cooling.schedule.countSteps limit = .ok (some n)) ∧
    IsLeast {k : Nat | cooling.initial * cooling.factor ^ k ≤ cooling.final} n ∧
    (∀ k, cooling.schedule.cooled k = .ok (cooling.initial * cooling.factor ^ k)) ∧
    (StrictAnti fun k : Nat => cooling.initial * cooling.factor ^ k) ∧
    (cooling.final < cooling.initial → cooling.stepBound = .ok (n + 1)) ∧
    (cooling.initial ≤ cooling.final → n = 0 ∧ cooling.stepBound = .ok 0) := by
  refine ⟨cooling.steps, fun limit => cooling.countSteps_eq, cooling.isLeast_steps,
    cooling.cooled_eq, cooling.strictAnti_temperatures, cooling.stepBound_of_lt,
    fun hle => ⟨?_, cooling.stepBound_of_le hle⟩⟩
  exact Nat.le_zero.mp (cooling.steps_le_iff.mpr (by simpa using hle))

/-- From eight down to one by halves: the third step gets there, and just there. -/
noncomputable def halving : ExactCooling where
  initial := 8
  factor := 1 / 2
  final := 1
  initial_pos := by norm_num
  final_pos := by norm_num
  factor_pos := by norm_num
  factor_lt_one := by norm_num

theorem steps_of_exact_halving :
    halving.schedule.countSteps 4 = .ok (some 3) ∧ halving.stepBound = .ok 4 := by
  obtain ⟨n, hcount, ⟨hmember, hleast⟩, -, -, hbound, -⟩ := halving.steps_of_exact
  have hle : n ≤ 3 := hleast (by norm_num [halving])
  have hge : 3 ≤ n := by
    by_contra hnot
    have hfew : n = 0 ∨ n = 1 ∨ n = 2 := by omega
    rcases hfew with rfl | rfl | rfl <;> norm_num [halving] at hmember
  obtain rfl : n = 3 := Nat.le_antisymm hle hge
  exact ⟨hcount 4 (by decide), hbound (by norm_num [halving])⟩

end ExactCooling

end Annealing
