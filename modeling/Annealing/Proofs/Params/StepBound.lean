import Annealing.Proofs.Decimal.Spans
import Annealing.Proofs.Params.Descent

/-! # The closed form in doubles

The closed form of the number of steps divides, takes two logarithms and divides again, all in
doubles.  Its errors, and those that the rounded products add up to, come to less than the one step
that is added in the end, as long as all temperatures and the quotient are normal and the factor is
not too near to one.

* `Regular.stepBound_of_hot` — what the closed form computes.
* `Regular.exists_stepBound` — its logarithms and its quotient.
* `Regular.exists_le_stepBound`, `Regular.exists_stepBound_lt` — bounds on it.
* `stepBound_of_read` — when it gives a number at all, and when this is a bound.
* `exists_read_not_bounded` — parameters that are accepted, and whose closed form is no bound.
-/

namespace Annealing

/-! ## What is computed -/

namespace Number

open Decimal (Magnitude Rounded exact pairValue)

variable {log : Float → Float} {x y : Float}

/-- Of the finite doubles that have no minus sign, zero alone has no logarithm. -/
theorem logFloat_of_magnitude {m : Nat} {e : Int} (hx : Magnitude x m e) :
    logFloat log x = if m = 0 then .error .unusable else .ok (log x) := by
  have hnan : x.isNaN = false := by
    change x.toModel.unpack.isNaN = false
    rw [hx.unpack_eq, Decimal.ofPair]
    split <;> rfl
  have hinf : x.isInf = false := by
    change x.toModel.unpack.isInf = false
    rw [hx.unpack_eq, Decimal.ofPair]
    split <;> rfl
  rw [logFloat, hnan, hinf]
  by_cases hm : m = 0
  · rw [if_neg Bool.false_ne_true, if_neg fun hpos => hx.pos_iff.mp hpos hm, if_pos hm]
  · rw [if_neg Bool.false_ne_true, if_pos (hx.pos_iff.mpr hm), if_neg Bool.false_ne_true,
      if_neg hm]

/-- The quotient of two finite doubles, taken up to the next integer. -/
theorem exists_ceil?_div (hx : x.isFinite = true) (hy : y.isFinite = true)
    (hne : exact y ≠ 0) (hbound : |exact x / exact y| ≤ pairValue (2 ^ 53 - 1) 971) :
    ∃ z : Float, (float x).div (.float y) = .ok z ∧
      (Value.float z).ceil? = .ok ⌈exact z⌉ ∧ Rounded (exact z) (exact x / exact y) := by
  obtain ⟨hfinite, hnear⟩ := Decimal.exact_div hx hy hne hbound
  obtain ⟨d, hd, hceiling⟩ := Decimal.exists_ceiling hfinite
  refine ⟨x / y, ?_, ?_, ?_⟩
  · exact div_of_toFloat rfl rfl (Decimal.beq_zero_of_exact_ne hne) (by simp)
  · rw [← hceiling, Value.ceil?]
    simp [Value.toNumber?, Value.number?, hd, bind, Except.bind, pure, Except.pure]
  · have hcast := Rat.cast_le (K := ℝ) |>.mpr hnear
    simp only [Rat.cast_max, Rat.cast_abs, Rat.cast_sub, Rat.cast_div, Rat.cast_mul,
      Rat.cast_zpow, Rat.cast_ofNat] at hcast
    exact .of_max hcast

end Number

namespace Params

open Decimal (AccurateLog Fraction Magnitude Near Rounded drift exact pairValue pairValue_pos)

variable {params : Params} {initial final : Number} {factor quotient : Float}
  {log : Float → Float}

namespace Regular

theorem le?_eq (hregular : params.Regular initial final factor) :
    params.initialTemperature.le? params.finalTemperature = .ok (!final.lt initial) := by
  obtain ⟨v, hfinal, -⟩ := exists_value_of_pos hregular.final_pos
  obtain ⟨w, hinitial, -⟩ := exists_value_of_pos hregular.initial_pos
  rw [Value.le?_of_number hregular.initial_eq hregular.final_eq, Except.ok.injEq,
    Bool.eq_iff_iff, Bool.or_eq_true, hinitial.lt_iff hfinal, hinitial.eq_iff hfinal,
    Bool.not_eq_true', ← Bool.not_eq_true, hfinal.lt_iff hinitial, not_lt, le_iff_lt_or_eq]

theorem stepBound_of_cold (hregular : params.Regular initial final factor)
    (hcold : final.lt initial = false) : params.stepBound log = .ok 0 := by
  have hle := hregular.le?_eq
  rw [hcold] at hle
  simp [stepBound, Logarithmic.stepBound, arithmetic, hle, bind, Except.bind, pure, Except.pure]

/-- The closed form takes the logarithms of the quotient and of the factor. -/
theorem stepBound_of_hot (hregular : params.Regular initial final factor)
    (hhot : final.lt initial = true) (hdiv : final.div initial = .ok quotient) :
    params.stepBound log = (do
      let spread ← Number.logFloat log quotient
      let pace ← Number.logFloat log factor
      let span ← (Number.float spread).div (.float pace)
      let steps ← (Value.float span).ceil?
      return steps + 1) := by
  have hle := hregular.le?_eq
  rw [hhot] at hle
  have hdiv? : params.finalTemperature.div? params.initialTemperature = .ok quotient := by
    rw [Value.div?_of_number hregular.final_eq hregular.initial_eq, hdiv]
  have hspread : (Value.float quotient).log? log = _ := Value.log?_of_number rfl
  have hpace : params.coolingFactor.log? log = _ := Value.log?_of_number hregular.factor_eq
  simp only [stepBound, Logarithmic.stepBound, arithmetic, hle, hdiv?, hspread, hpace, Number.log,
    bind, Except.bind, pure, Except.pure, Except.map, Bool.not_true, Bool.false_eq_true, if_false]
  cases Number.logFloat log quotient with
  | error fault => rfl
  | ok spread =>
    cases Number.logFloat log factor with
    | error fault => rfl
    | ok pace =>
      have hspan : (Value.float spread).div? (.float pace) = _ := Value.div?_of_number rfl rfl
      simp only [hspan]
      cases (Number.float spread).div (.float pace) <;> rfl

/-- Where the quotient of the temperatures is zero, it has no logarithm. -/
theorem stepBound_of_zero (hregular : params.Regular initial final factor)
    (hhot : final.lt initial = true) (hdiv : final.div initial = .ok quotient) {e : Int}
    (hquotient : Magnitude quotient 0 e) : params.stepBound log = .error .unusable := by
  rw [hregular.stepBound_of_hot hhot hdiv, Number.logFloat_of_magnitude hquotient]
  rfl

/-! ## Bounds -/

/-- A factor that is some way off one is not too near to one for any number of steps: between all
    doubles there is no more than some way to go. -/
theorem steps_le_of_factor (hregular : params.Regular initial final factor) {limit n : Nat}
    (hends : params.schedule.countSteps limit = .ok (some n)) {v w : ℚ}
    (hfinal : final.HasValue v) (hinitial : initial.HasValue w) (hlt : v < w)
    (hnormal : 2 ^ (-1022 : Int) ≤ v) {c : Nat} {b : Int} (hfraction : Fraction factor c b)
    (hfactor : pairValue c b ≤ 1 - 2 ^ (-19 : Int)) :
    (n : ℚ) ≤ 2 ^ 49 * (1 - pairValue c b) := by
  obtain ⟨hsteps, hway⟩ := hregular.steps_mul_le hends hfinal hinitial hlt hnormal hfraction
  obtain ⟨hdrift_pos, hdrift⟩ := Decimal.drift_bounds
  have hpace := hfraction.le_neg_log.1
  have hlog_two : Real.log 2 < 0.6931471808 := Real.log_two_lt_d9
  obtain ⟨gap, hgap⟩ : ∃ gap : ℝ, 1 - pairValue c b = gap := ⟨_, rfl⟩
  have hgap_large : 1 / 2 ^ 19 ≤ gap := by
    have hcast := Rat.cast_le (K := ℝ) |>.mpr hfactor
    push_cast at hcast
    norm_num at hcast ⊢
    linarith
  have hbound : (n : ℝ) ≤ 2 ^ 49 * gap := by
    by_contra hmany
    have hcount : 0.9 * 2 ^ 49 * gap ≤ n - 1 := by
      norm_num at hmany hgap_large ⊢
      linarith
    have hrate : 0.9 * gap ≤ -Real.log (pairValue c b) - drift := by
      norm_num at hdrift hgap_large ⊢
      linarith
    have hgap_pos : 0 < gap := lt_of_lt_of_le (by positivity) hgap_large
    have hcount_pos : 0 ≤ 0.9 * 2 ^ 49 * gap := by positivity
    have hproduct := mul_le_mul hcount hrate (by positivity) (hcount_pos.trans hcount)
    have hsquare := mul_le_mul hgap_large hgap_large (by positivity) hgap_pos.le
    norm_num at hproduct hsquare hdrift
    linarith
  rw [← hgap] at hbound
  exact_mod_cast hbound

section Quotient

-- The quotient of the temperatures is a double that is neither zero nor above one.
variable {m c : Nat} {e b : Int} (hregular : params.Regular initial final factor)
  (hlog : AccurateLog log) (hhot : final.lt initial = true)
  (hdiv : final.div initial = .ok quotient) (hquotient : Magnitude quotient m e) (hm : m ≠ 0)
  (hone : pairValue m e ≤ 1) (hfraction : Fraction factor c b)

include hregular hlog hhot hdiv hquotient hm hone hfraction

/-- Both logarithms are near, and their quotient is not too great for a double. -/
theorem exists_stepBound :
    ∃ (q : ℚ) (a p : ℝ), params.stepBound log = .ok (⌈q⌉ + 1) ∧
      Near a (-Real.log (pairValue m e)) ∧ Near p (-Real.log (pairValue c b)) ∧
      Rounded q (a / p) := by
  have hspread_near := hlog.near_neg hquotient hm
  have hpace_near := hlog.near_neg hfraction.toMagnitude hfraction.ne_zero
  have hpace_large := hfraction.le_neg_log.2
  have hway := hquotient.neg_log_bounds hm hone
  have hpos := (hpace_near.bounds hpace_large).1
  have hne : exact (log factor) ≠ 0 := by
    intro hzero
    rw [hzero] at hpos
    norm_num at hpos hpace_large
    linarith
  have hbound : |exact (log quotient) / exact (log factor)| ≤ pairValue (2 ^ 53 - 1) 971 := by
    have hle := Decimal.abs_div_le hspread_near hway.1 hway.2 hpace_near hpace_large
    rw [neg_div_neg_eq] at hle
    have hgreatest : (2 ^ 65 : ℚ) ≤ pairValue (2 ^ 53 - 1) 971 := by
      calc (2 ^ 65 : ℚ) ≤ (2 ^ 53 - 1 : Nat) * 2 ^ (13 : Int) := by norm_num
        _ ≤ pairValue (2 ^ 53 - 1) 971 := mul_le_mul_of_nonneg_left
          (zpow_le_zpow_right₀ one_le_two (by decide)) (by positivity)
    refine le_trans ?_ hgreatest
    exact_mod_cast hle
  obtain ⟨z, hdivided, hceil, hrounded⟩ := Number.exists_ceil?_div
    (hlog.near hquotient hm).1 (hlog.near hfraction.toMagnitude hfraction.ne_zero).1 hne hbound
  refine ⟨exact z, _, _, ?_, hspread_near, hpace_near, ?_⟩
  · rw [hregular.stepBound_of_hot hhot hdiv, Number.logFloat_of_magnitude hquotient, if_neg hm,
      Number.logFloat_of_magnitude hfraction.toMagnitude, if_neg hfraction.ne_zero]
    simp [hdivided, hceil, bind, Except.bind, pure, Except.pure]
  · rwa [neg_div_neg_eq]

/-- Where all quotients are normal and the factor is not too near to one for so many steps, the
    closed form is a bound on them. -/
theorem exists_le_stepBound {v w : ℚ}
    (hratio : |Real.log (pairValue m e) - (Real.log v - Real.log w)| ≤ 3 * drift) {n : Nat}
    (hn : 1 ≤ n)
    (hsteps : (n - 1) * (-Real.log (pairValue c b) - drift) ≤ Real.log w - Real.log v + drift)
    (hfew : (n : ℚ) ≤ 2 ^ 49 * (1 - pairValue c b)) :
    ∃ bound, params.stepBound log = .ok bound ∧ n ≤ bound := by
  obtain ⟨q, a, p, hbound, ha, hp, hq⟩ :=
    hregular.exists_stepBound hlog hhot hdiv hquotient hm hone hfraction
  obtain ⟨hpace, hpace_large⟩ := hfraction.le_neg_log
  refine ⟨_, hbound, ?_⟩
  have hfew_pace : (n : ℝ) ≤ 2 ^ 49 * min (-Real.log (pairValue c b)) 1 := by
    have hgap : (n : ℝ) ≤ 2 ^ 49 * (1 - pairValue c b) := by exact_mod_cast hfew
    have hpos : (0 : ℝ) < pairValue c b := by exact_mod_cast pairValue_pos hfraction.ne_zero b
    exact hgap.trans (mul_le_mul_of_nonneg_left (le_min hpace (by linarith)) (by positivity))
  have hway : (n - 1) * (-Real.log (pairValue c b) - drift) ≤
      -Real.log (pairValue m e) + 4 * drift := by
    linarith [(abs_le.mp hratio).2]
  have hless := Decimal.le_quotient hn hpace_large (hquotient.neg_log_bounds hm hone).1 hp ha hq
    hway hfew_pace
  have hceil : (n : Int) - 2 < ⌈q⌉ := by
    rw [Int.lt_ceil]
    push_cast
    exact_mod_cast hless
  omega

/-- The closed form is not much above the number of times that the factor goes into the quotient. -/
theorem exists_stepBound_lt {k : ℝ} (hk : 0 ≤ k) (hfew : k ≤ 2 ^ 40)
    (hle : -Real.log (pairValue m e) ≤ k * -Real.log (pairValue c b)) {most : Int}
    (hmost : k + 5 / 2 ≤ most) : ∃ bound, params.stepBound log = .ok bound ∧ bound < most := by
  obtain ⟨q, a, p, hbound, ha, hp, hq⟩ :=
    hregular.exists_stepBound hlog hhot hdiv hquotient hm hone hfraction
  have hless := Decimal.quotient_lt hfraction.le_neg_log.2 (hquotient.neg_log_bounds hm hone).1 hp
    ha hq hle hk hfew
  have hceil : (⌈q⌉ : ℝ) < q + 1 := by exact_mod_cast Int.ceil_lt_add_one q
  refine ⟨_, hbound, ?_⟩
  have hlt : ((⌈q⌉ + 1 : Int) : ℝ) < most := by
    push_cast
    linarith
  exact_mod_cast hlt

end Quotient

end Regular

/-! ## Parameters that are read -/

/-- What the closed form is for parameters that are accepted and have a schedule that ends, with any
    logarithm that is accurate to one unit in the last place.  It is zero if there are no steps.
    Otherwise the final temperature is divided by the initial one: the closed form gives a number
    just if the quotient is not zero, and this number is a bound if neither the quotient nor the
    final temperature is below the least normal number and the factor is not too near to one, either
    for the number of steps or for any. -/
theorem stepBound_of_read (hlog : AccurateLog log) {supplied : Supplied} {params : Params}
    (hread : (Params.read supplied).result = .ok params) {limit n : Nat}
    (hends : params.schedule.countSteps limit = .ok (some n)) :
    (params.initialTemperature.le? params.finalTemperature = .ok true ∧ n = 0 ∧
      params.stepBound log = .ok 0) ∨
    (params.initialTemperature.le? params.finalTemperature = .ok false ∧
      ∃ quotient factor : Float,
        params.finalTemperature.div? params.initialTemperature = .ok quotient ∧
        params.coolingFactor = .float factor ∧
        (0 < quotient → ∃ bound, params.stepBound log = .ok bound) ∧
        (¬ 0 < quotient → params.stepBound log = .error .unusable) ∧
        (params.finalTemperature.lt? (.float Decimal.leastNormal) = .ok false →
          Decimal.leastNormal ≤ quotient →
          ((n : ℚ) ≤ 2 ^ 49 * (1 - exact factor) ∨ exact factor ≤ 1 - 2 ^ (-19 : Int)) →
          ∃ bound, params.stepBound log = .ok bound ∧ n ≤ bound)) := by
  have hvalid := (validate_of_read hread).1
  obtain ⟨initial, final, factor, hregular⟩ :=
    exists_regular (numeric_of_validate hvalid) hvalid
  have hle := hregular.le?_eq
  cases hhot : final.lt initial with
  | false =>
    rw [hhot] at hle
    exact .inl ⟨hle, hregular.steps_eq_zero hends hhot, hregular.stepBound_of_cold hhot⟩
  | true =>
    rw [hhot] at hle
    obtain ⟨v, w, hfinal, hinitial, hv, hlt⟩ := hregular.exists_values hends hhot
    obtain ⟨start, hstart⟩ := hregular.exists_start hends hhot
    obtain ⟨c, b, hfraction⟩ := hregular.exists_fraction
    obtain ⟨quotient, m, e, hdiv, hquotient, hone, hratio⟩ :=
      Number.exists_div hfinal hinitial hv hlt hstart
    have hdiv? : params.finalTemperature.div? params.initialTemperature = .ok quotient := by
      rw [Value.div?_of_number hregular.final_eq hregular.initial_eq, hdiv]
    refine .inr ⟨hle, quotient, factor, hdiv?, Value.eq_float_of_number hregular.factor_eq,
      ?_, ?_, ?_⟩
    · intro hpos
      obtain ⟨q, -, -, hbound, -⟩ := hregular.exists_stepBound hlog hhot hdiv hquotient
        (hquotient.pos_iff.mp hpos) hone hfraction
      exact ⟨_, hbound⟩
    · intro hnot
      obtain rfl : m = 0 := not_not.mp (hquotient.pos_iff.not.mp hnot)
      exact hregular.stepBound_of_zero hhot hdiv hquotient
    · intro hcold hnormal hfactor
      have hleast := Decimal.hasValue_leastNormal
      rw [Value.lt?_of_number hregular.final_eq rfl, Except.ok.injEq, ← Bool.not_eq_true,
        hfinal.lt_iff (.float hleast), not_lt, WithTop.coe_le_coe] at hcold
      rw [hleast.le_iff (.finite hquotient), WithTop.coe_le_coe] at hnormal
      have hm : m ≠ 0 := by
        rintro rfl
        rw [Decimal.pairValue_zero] at hnormal
        exact absurd hnormal (not_le.mpr (by positivity))
      rw [hfraction.exact_eq] at hfactor
      exact hregular.exists_le_stepBound hlog hhot hdiv hquotient hm hone hfraction
        (hratio hcold hnormal) (hregular.one_le_steps hends hhot)
        (hregular.steps_mul_le hends hfinal hinitial hlt hcold hfraction).1
        (hfactor.elim id (hregular.steps_le_of_factor hends hfinal hinitial hlt hcold hfraction))

/-- From ten down to one by halves. -/
def halved : Params :=
  ⟨.float 10, .float 0.5, .float 1, .int 20000⟩

theorem stepBound_of_read_halved :
    (Params.read (.params halved)).result = .ok halved ∧
    halved.schedule.countSteps 5 = .ok (some 4) ∧
    ∃ bound, halved.stepBound Decimal.nearestLog = .ok bound ∧ 4 ≤ bound := by
  have hread : (Params.read (.params halved)).result = .ok halved := rfl
  have hends : halved.schedule.countSteps 5 = .ok (some 4) := rfl
  refine ⟨hread, hends, ?_⟩
  rcases stepBound_of_read Decimal.accurateLog_nearestLog hread hends with
    ⟨-, hnone, -⟩ | ⟨-, quotient, factor, hdiv, hfactor, -, -, hbound⟩
  · cases hnone
  · cases hdiv
    cases hfactor
    exact hbound rfl (by decide +kernel) (.inr (by decide +kernel))

/-! ## Where there is no bound -/

/-- The quotient of these temperatures is below all doubles. -/
def underflowing : Params :=
  ⟨.float 1e300, .float 1e-300, .float 1e-300, .int 1⟩

/-- Each step takes one unit in the last place away, although it would be 1.4 of them. -/
def drifting : Params :=
  ⟨.float 1.4, .float 0.9999999999999998, .float 1.3999999999999977, .int 1⟩

/-- From 74 times the least positive double down to 51 times it: each step takes one of them away,
    although it would be up to 1.48 of them. -/
def coarse : Params :=
  ⟨.float (.ofBits 74), .float 0.98, .float (.ofBits 51), .int 1⟩

theorem underflowing_regular : underflowing.Regular (.float 1e300) (.float 1e-300) 1e-300 :=
  regular_of_float (by decide +kernel)

theorem drifting_regular :
    drifting.Regular (.float 1.4) (.float 1.3999999999999977) 0.9999999999999998 :=
  regular_of_float (by decide +kernel)

theorem coarse_regular : coarse.Regular (.float (.ofBits 74)) (.float (.ofBits 51)) 0.98 :=
  regular_of_float (by decide +kernel)

theorem countSteps_underflowing : underflowing.schedule.countSteps 3 = .ok (some 2) := by
  have hhot : ∀ k, underflowing.schedule.hotAfter (k + 1) =
      .ok ((Number.float 1e-300).lt (.float ((· * 1e-300)^[k + 1] 1e300))) :=
    underflowing_regular.hotAfter_succ rfl
  refine Schedule.countSteps_eq_some_iff.mpr ⟨by decide, fun k hk => ?_, ?_⟩
  · interval_cases k
    · rw [underflowing_regular.hotAfter_zero, Except.ok.injEq]
      decide +kernel
    · rw [hhot, Except.ok.injEq]
      decide +kernel
  · rw [hhot, Except.ok.injEq]
    decide +kernel

theorem stepBound_underflowing (log : Float → Float) :
    underflowing.stepBound log = .error .unusable := by
  have hquotient : Magnitude ((1e-300 : Float) / 1e300) 0 (-1074) := by
    have hzero : (1e-300 : Float) / 1e300 = 0 := by decide +kernel
    rw [hzero]
    exact ⟨Decimal.canonical_zero, by decide, rfl⟩
  exact underflowing_regular.stepBound_of_zero (by decide +kernel)
    (Number.div_of_toFloat rfl rfl (by decide +kernel) (by simp)) hquotient

theorem stepBound_drifting (hlog : AccurateLog log) :
    ∃ bound, drifting.stepBound log = .ok bound ∧ bound < 10 := by
  have hquotient : Magnitude ((1.3999999999999977 : Float) / 1.4) (2 ^ 53 - 14) (-53) :=
    ⟨⟨by decide, by decide, .inl (by decide)⟩, by decide, rfl⟩
  have hfactor : Magnitude 0.9999999999999998 (2 ^ 53 - 2) (-53) :=
    ⟨⟨by decide, by decide, .inl (by decide)⟩, by decide, rfl⟩
  have hratio : pairValue (2 ^ 53 - 14) (-53) = (2 ^ 53 - 14) / 2 ^ 53 := by
    rw [pairValue]
    norm_num
  have hgap : pairValue (2 ^ 53 - 2) (-53) = (2 ^ 53 - 2) / 2 ^ 53 := by
    rw [pairValue]
    norm_num
  have hfraction : Fraction 0.9999999999999998 (2 ^ 53 - 2) (-53) :=
    ⟨hfactor, by decide, by rw [hgap]; norm_num⟩
  have hpace := hfraction.le_neg_log.1
  -- The factor goes into the quotient hardly more than seven times.
  have hway : -Real.log (pairValue (2 ^ 53 - 14) (-53)) ≤
      7.01 * -Real.log (pairValue (2 ^ 53 - 2) (-53)) := by
    have hlog := Real.one_sub_inv_le_log_of_pos (x := pairValue (2 ^ 53 - 14) (-53))
      (by exact_mod_cast pairValue_pos (by decide) _)
    rw [hratio] at hlog ⊢
    rw [hgap] at hpace ⊢
    norm_num at hlog hpace ⊢
    linarith
  exact drifting_regular.exists_stepBound_lt hlog (by decide +kernel) rfl hquotient (by decide)
    (by rw [hratio]; norm_num) hfraction (by norm_num) (by norm_num) hway (by norm_num)

theorem stepBound_coarse (hlog : AccurateLog log) :
    ∃ bound, coarse.stepBound log = .ok bound ∧ bound < 23 := by
  have hquotient : Magnitude ((.ofBits 51 : Float) / .ofBits 74) 6207664351240413 (-53) :=
    ⟨⟨by decide, by decide, .inl (by decide)⟩, by decide, rfl⟩
  have hfactor : Magnitude 0.98 8827055269646172 (-53) :=
    ⟨⟨by decide, by decide, .inl (by decide)⟩, by decide, rfl⟩
  have hratio : pairValue 6207664351240413 (-53) = 6207664351240413 / 2 ^ 53 := by
    rw [pairValue]
    norm_num
  have hgap : pairValue 8827055269646172 (-53) = 8827055269646172 / 2 ^ 53 := by
    rw [pairValue]
    norm_num
  have hfraction : Fraction 0.98 8827055269646172 (-53) :=
    ⟨hfactor, by decide, by rw [hgap]; norm_num⟩
  have hpace := hfraction.le_neg_log.1
  -- The quotient is above the square of 0.83, and the factor is 0.98.
  have hway : -Real.log (pairValue 6207664351240413 (-53)) ≤
      20.49 * -Real.log (pairValue 8827055269646172 (-53)) := by
    have hlog := Real.one_sub_inv_le_log_of_pos (x := 0.83) (by norm_num)
    have hsquare := Real.log_le_log (x := 0.83 ^ 2) (y := pairValue 6207664351240413 (-53))
      (by norm_num) (by rw [hratio]; norm_num)
    rw [Real.log_pow] at hsquare
    rw [hgap] at hpace ⊢
    norm_num at hlog hsquare hpace ⊢
    linarith
  exact coarse_regular.exists_stepBound_lt hlog (by decide +kernel) rfl hquotient (by decide)
    (by rw [hratio]; norm_num) hfraction (by norm_num) (by norm_num) hway (by norm_num)

/-- All three are accepted and have a schedule that ends.  The closed form of the first is no
    number, whatever the logarithm is, and that of the others is below the number of steps. -/
theorem exists_read_not_bounded :
    ((Params.read (.params underflowing)).result = .ok underflowing ∧
      underflowing.schedule.countSteps 3 = .ok (some 2) ∧
      ∀ log, underflowing.stepBound log = .error .unusable) ∧
    ((Params.read (.params drifting)).result = .ok drifting ∧
      drifting.schedule.countSteps 11 = .ok (some 10) ∧
      ∀ log, AccurateLog log → ∃ bound, drifting.stepBound log = .ok bound ∧ bound < 10) ∧
    (Params.read (.params coarse)).result = .ok coarse ∧
      coarse.schedule.countSteps 24 = .ok (some 23) ∧
      ∀ log, AccurateLog log → ∃ bound, coarse.stepBound log = .ok bound ∧ bound < 23 :=
  ⟨⟨underflowing_regular.validate_eq rfl, countSteps_underflowing, stepBound_underflowing⟩,
    ⟨rfl, rfl, fun _ => stepBound_drifting⟩,
    ⟨coarse_regular.validate_eq rfl, rfl, fun _ => stepBound_coarse⟩⟩

end Params

end Annealing
