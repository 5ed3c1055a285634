import Annealing.Proofs.Decimal.Fractions
import Annealing.Proofs.Decimal.Integers
import Annealing.Proofs.Params.Numeric

/-! # Which schedules end

A cooling step multiplies the temperature by a fraction and rounds.  The temperature never rises, so
a schedule either gets to the final temperature or stands still above it.

* `Schedule.EndsWithin` — a schedule ends from a temperature before a limit, or fails.
* `Params.StandsStill` — a temperature above the final one that cooling does not lower.
* `Regular.countSteps_stepLimit` — if no temperature stands still, the steps are less than
  `stepLimit`.
* `Params.halts_iff` — parameters that are accepted have a schedule that ends unless some
  temperature stands still.
-/

namespace Annealing

/-! ## Ends of schedules -/

namespace Schedule

variable {τ ε : Type} {schedule : Schedule τ ε} {temperature : τ}

/-- Cooling from a temperature comes to an end before a limit, or fails. -/
def EndsWithin (schedule : Schedule τ ε) (limit : Nat) (temperature : τ) : Prop :=
  ∀ steps, schedule.countFrom limit temperature steps ≠ .ok none

/-- Cooling ends where it ends after the next step, if there is one. -/
theorem endsWithin_of_next {limit : Nat} (hnext : schedule.hot temperature = .ok true →
    ∀ cooler, schedule.cool temperature = .ok cooler → schedule.EndsWithin limit cooler) :
    schedule.EndsWithin (limit + 1) temperature := by
  intro steps
  cases hhot : schedule.hot temperature with
  | error fault => simp [countFrom, hhot]
  | ok hot =>
    cases hot with
    | false => simp [countFrom, hhot]
    | true =>
      cases hcool : schedule.cool temperature with
      | error fault => simp [countFrom, hhot, hcool]
      | ok cooler => simpa [countFrom, hhot, hcool] using hnext hhot cooler hcool (steps + 1)

/-- Cooling goes on for ever from temperatures that are hot and lead to such ones again. -/
theorem countFrom_eq_none {P : τ → Prop}
    (hkeep : ∀ temperature, P temperature → schedule.hot temperature = .ok true ∧
      ∃ cooler, schedule.cool temperature = .ok cooler ∧ P cooler)
    (limit : Nat) (htemperature : P temperature) (steps : Nat) :
    schedule.countFrom limit temperature steps = .ok none := by
  induction limit generalizing temperature steps with
  | zero => rfl
  | succ limit ih =>
    obtain ⟨hhot, cooler, hcool, hcooler⟩ := hkeep temperature htemperature
    simpa [countFrom, hhot, hcool] using ih hcooler (steps + 1)

end Schedule

/-! ## Temperatures that stand still -/

/-- The least double with all its bits, `2 ^ (-1022)`. -/
def Decimal.leastNormal : Float :=
  .ofBits 0x0010000000000000

theorem Decimal.hasValue_leastNormal :
    Decimal.HasValue leastNormal ((2 ^ (-1022 : Int) : ℚ) : WithTop ℚ) := by
  have hunpack : leastNormal.toModel.unpack =
      .finite .positive (2 ^ 52) (-1074) (by decide) := rfl
  rw [← pairValue_leastNormal]
  exact .finite (magnitude_of_finite hunpack)

namespace Params

/-- The schedule ends, or fails, after some number of steps. -/
def Halts (params : Params) : Prop :=
  ∃ limit, params.schedule.countSteps limit ≠ .ok none

/-- A temperature that is hot and not above the initial one, and that cooling does not lower. -/
structure StandsStill (params : Params) (x : Float) : Prop where
  hot : params.finalTemperature.lt? (.float x) = .ok true
  reached : ∃ start, params.initialTemperature.toFloat? = .ok start ∧ x ≤ start
  still : ∃ factor, params.coolingFactor.toFloat? = .ok factor ∧ ¬ x * factor < x

end Params

/-- A temperature that is a double and not below another one. -/
def Temperature.NotBelow (x : Float) (temperature : Temperature) : Prop :=
  ∃ y v, temperature = .ofValue (.float y) ∧ Decimal.HasValue y v ∧ x ≤ y

namespace Params

namespace Regular

variable {params : Params} {initial final : Number} {factor : Float}

theorem standsStill_iff (hregular : params.Regular initial final factor) {x : Float} :
    params.StandsStill x ↔ final.lt (.float x) = true ∧
      (∃ start, initial.toFloat? = .ok start ∧ x ≤ start) ∧ ¬ x * factor < x := by
  have hhot : params.finalTemperature.lt? (.float x) = .ok (final.lt (.float x)) :=
    Value.lt?_of_number hregular.final_eq rfl
  have hstart := Value.toFloat?_of_number hregular.initial_eq
  have hfactor : params.coolingFactor.toFloat? = .ok factor :=
    Value.toFloat?_of_number hregular.factor_eq
  constructor
  · rintro ⟨habove, ⟨start, hreached, hle⟩, still, hstill, hnot⟩
    rw [hhot, Except.ok.injEq] at habove
    rw [hstart] at hreached
    rw [hfactor, Except.ok.injEq] at hstill
    exact ⟨habove, ⟨start, hreached, hle⟩, hstill ▸ hnot⟩
  · rintro ⟨habove, ⟨start, hreached, hle⟩, hnot⟩
    exact ⟨by rw [hhot, habove], ⟨start, by rw [hstart, hreached], hle⟩, factor, hfactor, hnot⟩

theorem hot_float (hregular : params.Regular initial final factor) (x : Float) :
    params.schedule.hot (.ofValue (.float x)) = .ok (final.lt (.float x)) :=
  hregular.hot_eq rfl

theorem cool_float (hregular : params.Regular initial final factor) (x : Float) :
    params.schedule.cool (.ofValue (.float x)) = .ok (.ofValue (.float (x * factor))) := by
  have hnumber : (Value.float x).number? = some (.float x) := rfl
  exact hregular.cool_eq hnumber

/-- The factor is a double strictly between zero and one. -/
theorem exists_fraction (hregular : params.Regular initial final factor) :
    ∃ n b, Decimal.Fraction factor n b := by
  obtain ⟨v, hv⟩ := (Number.HasValue.int 0).exists_of_lt le_rfl hregular.factor_pos
  have hpos := ((Number.HasValue.int 0).lt_iff (.float hv)).mp hregular.factor_pos
  have hlt := (Number.HasValue.lt_iff (.float hv) (.int 1)).mp hregular.factor_lt_one
  cases hv with
  | @finite n b hfactor =>
    rw [WithTop.coe_lt_coe] at hpos hlt
    refine ⟨n, b, hfactor, ?_, by simpa using hlt⟩
    rintro rfl
    simp at hpos
  | infinite hfactor => exact absurd hlt (by simp)

/-- A number above zero has a value above zero. -/
theorem exists_value_of_pos {a : Number} (hpos : (Number.int 0).lt a = true) :
    ∃ v : WithTop ℚ, a.HasValue v ∧ 0 < v := by
  have hvalue : ∃ v : WithTop ℚ, a.HasValue v := by
    cases a with
    | int i => exact ⟨_, .int i⟩
    | float x =>
      obtain ⟨v, hv⟩ := (Number.HasValue.int 0).exists_of_lt le_rfl hpos
      exact ⟨v, .float hv⟩
  obtain ⟨v, hv⟩ := hvalue
  refine ⟨v, hv, ?_⟩
  simpa using ((Number.HasValue.int 0).lt_iff hv).mp hpos

/-- Unless a temperature stands still, cooling ends from a finite double that is not above the
    initial temperature, before it has gone through all doubles below. -/
theorem endsWithin_of_magnitude (hregular : params.Regular initial final factor)
    (hnone : ¬ ∃ x, params.StandsStill x) {start : Float} (hstart : initial.toFloat? = .ok start)
    {w : WithTop ℚ} (hw : Decimal.HasValue start w) {x : Float} {m : Nat} {e : Int}
    (hx : Decimal.Magnitude x m e) (hle : x ≤ start) {limit : Nat}
    (hlimit : Decimal.rank m e < limit) :
    params.schedule.EndsWithin limit (.ofValue (.float x)) := by
  obtain ⟨n, b, hfraction⟩ := hregular.exists_fraction
  -- Each step that is made leads to a pair of lower rank.
  induction limit generalizing x m e with
  | zero => exact absurd hlimit (Nat.not_lt_zero _)
  | succ limit ih =>
    apply Schedule.endsWithin_of_next
    intro hhot cooler hcool
    rw [hregular.hot_float, Except.ok.injEq] at hhot
    have hlt : x * factor < x := by
      by_contra hnot
      exact hnone ⟨x, hregular.standsStill_iff.mpr ⟨hhot, ⟨start, hstart, hle⟩, hnot⟩⟩
    obtain ⟨p, d, hproduct, -⟩ := hx.exists_mul_fraction hfraction
    have hvalues := (hproduct.lt_iff hx).mp hlt
    have hproduct_le : x * factor ≤ start := by
      rw [Decimal.HasValue.le_iff (.finite hproduct) hw]
      have hbelow := (Decimal.HasValue.le_iff (.finite hx) hw).mp hle
      exact (WithTop.coe_le_coe.mpr hvalues.le).trans hbelow
    have hrank := hproduct.canonical.rank_lt hx.canonical hvalues
    rw [hregular.cool_float] at hcool
    cases hcool
    exact ih hproduct hproduct_le (by omega)

/-- Unless a temperature stands still, cooling ends from any double that is not above the initial
    temperature. -/
theorem endsWithin_of_le (hregular : params.Regular initial final factor)
    (hnone : ¬ ∃ x, params.StandsStill x) {start : Float} (hstart : initial.toFloat? = .ok start)
    {x : Float} {v : WithTop ℚ} (hx : Decimal.HasValue x v) (hle : x ≤ start) {limit : Nat}
    (hlimit : 2047 * 2 ^ 52 ≤ limit) :
    params.schedule.EndsWithin limit (.ofValue (.float x)) := by
  obtain ⟨w, hw, -⟩ := Number.exists_value_of_toFloat? hregular.initial_pos hstart
  cases hx with
  | @finite m e hx =>
    have hrank := hx.canonical.rank_lt_of_le hx.bounded
    exact hregular.endsWithin_of_magnitude hnone hstart hw hx hle (hrank.trans_le hlimit)
  | infinite hx =>
    -- Infinity stands still if it is hot.
    obtain ⟨n, b, hfraction⟩ := hregular.exists_fraction
    obtain ⟨limit, rfl⟩ := Nat.exists_eq_add_of_le' ((by decide : 1 ≤ 2047 * 2 ^ 52).trans hlimit)
    apply Schedule.endsWithin_of_next
    intro hhot
    rw [hregular.hot_float, Except.ok.injEq] at hhot
    refine absurd ⟨x, hregular.standsStill_iff.mpr ⟨hhot, ⟨start, hstart, hle⟩, fun hlt => ?_⟩⟩
      hnone
    have hsame := (Decimal.HasValue.lt_iff (.infinite (Decimal.infinity_mul hx hfraction))
      (.infinite hx)).mp hlt
    exact lt_irrefl _ hsame

/-- What is not below a temperature that stands still is hot, and does not get below it. -/
theorem hot_and_cool_of_standsStill (hregular : params.Regular initial final factor) {x : Float}
    (hstill : params.StandsStill x) {temperature : Temperature} (hnot : temperature.NotBelow x) :
    params.schedule.hot temperature = .ok true ∧
      ∃ cooler, params.schedule.cool temperature = .ok cooler ∧ cooler.NotBelow x := by
  obtain ⟨y, u, rfl, hy, hle⟩ := hnot
  obtain ⟨n, b, hfraction⟩ := hregular.exists_fraction
  obtain ⟨v, hfinal, hpos⟩ := exists_value_of_pos hregular.final_pos
  obtain ⟨habove, -, hnot⟩ := hregular.standsStill_iff.mp hstill
  obtain ⟨w, hx⟩ := hfinal.exists_of_lt hpos.le habove
  obtain ⟨w', hxc, -⟩ := hx.exists_mul hfraction
  obtain ⟨u', hyc, -⟩ := hy.exists_mul hfraction
  constructor
  · rw [hregular.hot_float, Except.ok.injEq, hfinal.lt_iff (.float hy)]
    exact ((hfinal.lt_iff (.float hx)).mp habove).trans_le ((hx.le_iff hy).mp hle)
  · refine ⟨_, hregular.cool_float y, y * factor, u', rfl, hyc, ?_⟩
    rw [hx.le_iff hyc]
    calc w ≤ w' := not_lt.mp fun hlt => hnot ((hxc.lt_iff hx).mpr hlt)
      _ ≤ u' := (hxc.le_iff hyc).mp (hx.mul_le_mul hy hfraction hle)

/-- A finite temperature that stands still is not above the least normal number. -/
theorem value_le_of_standsStill (hregular : params.Regular initial final factor) {x : Float}
    {q : ℚ} (hstill : params.StandsStill x) (hx : Decimal.HasValue x q) :
    q ≤ 2 ^ (-1022 : Int) := by
  obtain ⟨n, b, hfraction⟩ := hregular.exists_fraction
  by_contra hnormal
  exact (hregular.standsStill_iff.mp hstill).2.2 (hx.mul_lt hfraction (not_le.mp hnormal))

/-- From a finite temperature, one stands still only if the final one is below the least normal
    number. -/
theorem final_lt_of_standsStill (hregular : params.Regular initial final factor) {x : Float}
    (hstill : params.StandsStill x) {v : WithTop ℚ} (hfinal : final.HasValue v) (hpos : 0 < v)
    (hfinite : ∀ start, initial.toFloat? = .ok start → start.isFinite = true) :
    v < ((2 ^ (-1022 : Int) : ℚ) : WithTop ℚ) := by
  obtain ⟨habove, ⟨start, hstart, hle⟩, -⟩ := hregular.standsStill_iff.mp hstill
  obtain ⟨w, hx⟩ := hfinal.exists_of_lt hpos.le habove
  obtain ⟨u, hu, -⟩ := Number.exists_value_of_toFloat? hregular.initial_pos hstart
  have hw : w ≤ u := (hx.le_iff hu).mp hle
  have hne : w ≠ ⊤ := (hw.trans_lt (hu.ne_top_of_isFinite (hfinite start hstart)).lt_top).ne
  obtain ⟨q, rfl⟩ := WithTop.ne_top_iff_exists.mp hne
  exact ((hfinal.lt_iff (.float hx)).mp habove).trans_le
    (WithTop.coe_le_coe.mpr (hregular.value_le_of_standsStill hstill hx))

/-- The initial temperature is hot if some temperature stands still.  If it is an integer it may
    have been rounded up to a double, but the final temperature is below all positive integers. -/
theorem hot_initial_of_standsStill (hregular : params.Regular initial final factor) {x : Float}
    (hstill : params.StandsStill x) : final.lt initial = true := by
  obtain ⟨v, hfinal, hpos⟩ := exists_value_of_pos hregular.final_pos
  obtain ⟨habove, ⟨start, hstart, hle⟩, -⟩ := hregular.standsStill_iff.mp hstill
  obtain ⟨u, hu, hfinite⟩ := Number.exists_value_of_toFloat? hregular.initial_pos hstart
  cases initial with
  | float y =>
    cases hstart
    obtain ⟨w, hx⟩ := hfinal.exists_of_lt hpos.le habove
    rw [hfinal.lt_iff (.float hu)]
    exact ((hfinal.lt_iff (.float hx)).mp habove).trans_le ((hx.le_iff hu).mp hle)
  | int i =>
    have hone : (1 : ℚ) ≤ i := by
      have hpositive := hregular.initial_pos
      simp only [Number.lt, decide_eq_true_eq] at hpositive
      exact_mod_cast hpositive
    have hsmall : (2 : ℚ) ^ (-1022 : Int) < 1 := zpow_lt_one_of_neg₀ one_lt_two (by decide)
    have hlow := hregular.final_lt_of_standsStill hstill hfinal hpos fun other hother => by
      cases hstart.symm.trans hother
      exact hfinite i rfl
    rw [hfinal.lt_iff (.int i)]
    exact hlow.trans (WithTop.coe_lt_coe.mpr (hsmall.trans_le hone))

/-- Cooling goes on for ever if a temperature stands still. -/
theorem countSteps_of_standsStill (hregular : params.Regular initial final factor) {x : Float}
    (hstill : params.StandsStill x) (limit : Nat) :
    params.schedule.countSteps limit = .ok none := by
  have hinitial := hregular.hot_initial_of_standsStill hstill
  obtain ⟨-, ⟨start, hstart, hle⟩, -⟩ := hregular.standsStill_iff.mp hstill
  obtain ⟨u, hu, -⟩ := Number.exists_value_of_toFloat? hregular.initial_pos hstart
  have hnot : (Temperature.ofValue (.float start)).NotBelow x := ⟨start, u, rfl, hu, hle⟩
  obtain ⟨-, cooler, hcool, hcooler⟩ := hregular.hot_and_cool_of_standsStill hstill hnot
  -- The first step rounds an integer to a double; from there on all temperatures are doubles.
  have hfirst : params.schedule.cool params.schedule.initial = .ok cooler := by
    rw [hregular.cool_float] at hcool
    change params.schedule.cool (.ofValue params.initialTemperature) = _
    rw [hregular.cool_eq hregular.initial_eq, hstart]
    exact hcool
  have hhot : params.schedule.hot params.schedule.initial = .ok true := by
    change params.schedule.hot (.ofValue params.initialTemperature) = _
    rw [hregular.hot_eq hregular.initial_eq, hinitial]
  cases limit with
  | zero => rfl
  | succ limit =>
    have hrest := Schedule.countFrom_eq_none (fun _ => hregular.hot_and_cool_of_standsStill hstill)
      limit hcooler 1
    simpa [Schedule.countSteps, Schedule.countFrom, hhot, hfirst] using hrest

/-- Unless a temperature stands still, the schedule makes less than `stepLimit` steps. -/
theorem countSteps_stepLimit (hregular : params.Regular initial final factor)
    (hnone : ¬ ∃ x, params.StandsStill x) :
    params.schedule.countSteps stepLimit ≠ .ok none := by
  have hlimit : stepLimit = (2 ^ 63 - 1) + 1 := by decide
  have hends : params.schedule.EndsWithin stepLimit params.schedule.initial := by
    rw [hlimit]
    apply Schedule.endsWithin_of_next
    intro hhot cooler hcool
    change params.schedule.cool (.ofValue params.initialTemperature) = _ at hcool
    rw [hregular.cool_eq hregular.initial_eq] at hcool
    cases hstart : initial.toFloat? with
    | error fault => simp [hstart, Except.map] at hcool
    | ok start =>
      obtain ⟨n, b, hfraction⟩ := hregular.exists_fraction
      obtain ⟨u, hu, -⟩ := Number.exists_value_of_toFloat? hregular.initial_pos hstart
      obtain ⟨u', hproduct, hle⟩ := hu.exists_mul hfraction
      rw [hstart] at hcool
      cases hcool
      exact hregular.endsWithin_of_le hnone hstart hproduct ((hproduct.le_iff hu).mpr hle)
        (by decide)
  exact hends 0

theorem halts_of_not_standsStill (hregular : params.Regular initial final factor)
    (hnone : ¬ ∃ x, params.StandsStill x) : params.Halts :=
  ⟨stepLimit, hregular.countSteps_stepLimit hnone⟩

theorem halts_iff (hregular : params.Regular initial final factor) :
    params.Halts ↔ ¬ ∃ x, params.StandsStill x := by
  constructor
  · rintro ⟨limit, hlimit⟩ ⟨x, hstill⟩
    exact hlimit (hregular.countSteps_of_standsStill hstill limit)
  · exact hregular.halts_of_not_standsStill

/-- From a finite temperature the schedule ends if the final temperature is not below the least
    normal number. -/
theorem halts_of_normal (hregular : params.Regular initial final factor)
    (hfinite : ∀ start, initial.toFloat? = .ok start → start.isFinite = true)
    (hnormal : final.lt (.float Decimal.leastNormal) = false) : params.Halts := by
  apply hregular.halts_of_not_standsStill
  rintro ⟨x, hstill⟩
  obtain ⟨v, hfinal, hpos⟩ := exists_value_of_pos hregular.final_pos
  have hlow := hregular.final_lt_of_standsStill hstill hfinal hpos hfinite
  rw [← hfinal.lt_iff (.float Decimal.hasValue_leastNormal), hnormal] at hlow
  exact absurd hlow Bool.false_ne_true

end Regular

/-- Parameters that are accepted, from a map or as four numbers, have a schedule that ends if and
    only if no temperature stands still.  It ends if the initial temperature is finite and the
    final one is not below the least normal number. -/
theorem halts_of_read {supplied : Supplied} {params : Params}
    (hread : (Params.read supplied).result = .ok params)
    (hnumeric : ∀ ready, supplied = .params ready → ready.Numeric) :
    (params.Halts ↔ ¬ ∃ x, params.StandsStill x) ∧
      ((∀ start, params.initialTemperature.toFloat? = .ok start → start.isFinite = true) →
        params.finalTemperature.lt? (.float Decimal.leastNormal) = .ok false → params.Halts) := by
  obtain ⟨initial, final, factor, hregular⟩ := exists_regular_of_read hread hnumeric
  refine ⟨hregular.halts_iff, fun hfinite hnormal => ?_⟩
  rw [Value.toFloat?_of_number hregular.initial_eq] at hfinite
  have hnumber : (Value.float Decimal.leastNormal).number? = some (.float Decimal.leastNormal) :=
    rfl
  rw [Value.lt?_of_number hregular.final_eq hnumber, Except.ok.injEq] at hnormal
  exact hregular.halts_of_normal hfinite hnormal

theorem halts_of_read_sample :
    (Params.read (.value (.dict [(.text "initial_temperature", .int 5),
        (.text "kTF", .text "0.5")]))).result =
      .ok ⟨.float 5, .float 0.995, .float 0.5, .int 20000⟩ ∧
    (Params.mk (.float 5) (.float 0.995) (.float 0.5) (.int 20000)).Halts := by
  have hread : (Params.read (.value (.dict [(.text "initial_temperature", .int 5),
      (.text "kTF", .text "0.5")]))).result =
      .ok ⟨.float 5, .float 0.995, .float 0.5, .int 20000⟩ := rfl
  refine ⟨hread, (halts_of_read hread fun _ h => by cases h).2 ?_ ?_⟩
  · intro start hstart
    cases hstart
    rfl
  · rfl

/-! ## Schedules without an end -/

/-- An infinite temperature that is halved. -/
def endless : Params :=
  ⟨.float (1 / 0), .float 0.5, .float 1, .int 100⟩

/-- From twice the least positive double down to it: a tenth less is rounded to the same again. -/
def frozen : Params :=
  ⟨.float (.ofBits 2), .float 0.9, .float (.ofBits 1), .int 20000⟩

/-- A map that sets these parameters. -/
def frozenEntries : List (Value × Value) :=
  [(.text "initial_temperature", .float (.ofBits 2)), (.text "cooling_factor", .float 0.9),
    (.text "final_temperature", .float (.ofBits 1))]

theorem endless_regular : endless.Regular (.float (1 / 0)) (.float 1) 0.5 :=
  regular_of_float (by decide +kernel)

theorem frozen_regular : frozen.Regular (.float (.ofBits 2)) (.float (.ofBits 1)) 0.9 :=
  regular_of_float (by decide +kernel)

theorem endless_standsStill : endless.StandsStill (1 / 0) :=
  endless_regular.standsStill_iff.mpr
    ⟨by decide +kernel, ⟨1 / 0, rfl, by decide +kernel⟩, by decide +kernel⟩

theorem frozen_standsStill : frozen.StandsStill (.ofBits 2) :=
  frozen_regular.standsStill_iff.mpr
    ⟨by decide +kernel, ⟨.ofBits 2, rfl, by decide +kernel⟩, by decide +kernel⟩

theorem read_frozen : (Params.read (.value (.dict frozenEntries))).result = .ok frozen := by
  have hfields : ofFields (fun field => settle field (supplied? frozenEntries field)) = frozen :=
    rfl
  change (ofFields fun field => settle field (supplied? frozenEntries field)).validate = _
  rw [hfields]
  exact frozen_regular.validate_eq rfl

/-- Both are accepted, the one as ready numbers and the other from a map, and their schedules have
    no end. -/
theorem exists_read_not_halts :
    ((Params.read (.params endless)).result = .ok endless ∧ endless.Numeric ∧ ¬ endless.Halts) ∧
      (Params.read (.value (.dict frozenEntries))).result = .ok frozen ∧ ¬ frozen.Halts := by
  have hnumeric : endless.Numeric := fun field => by cases field <;> exact ⟨_, rfl⟩
  have hendless : ¬ endless.Halts := fun hhalts =>
    endless_regular.halts_iff.mp hhalts ⟨_, endless_standsStill⟩
  have hfrozen : ¬ frozen.Halts := fun hhalts =>
    frozen_regular.halts_iff.mp hhalts ⟨_, frozen_standsStill⟩
  exact ⟨⟨rfl, hnumeric, hendless⟩, read_frozen, hfrozen⟩

end Params

end Annealing
