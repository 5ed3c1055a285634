import Annealing.Proofs.Anneal.Cancellation
import Annealing.Proofs.Anneal.Faults
import Annealing.Proofs.Decimal.Exact

/-! # Parameters that work

Parameters are accepted by comparing them, and comparing never rounds.  An anneal computes with
them: it rounds the first temperature to a double, and it counts its trials.  `Params.Workable`
says that it can; parameters that are read from a map always are, and ready ones need not be.
Likewise an integer among ready parameters may be too long to be written.

* `workable_of_read`, `isWritable_of_read` — what is read from a map works, and can be written.
* `Regular.fault_of_coolingStep` — a cooling step of doubles fails for one of two reasons.
* `Regular.not_failed_of_workable` — an anneal with parameters that work never fails.
* `Regular.exists_failed_of_not_workable` — with other ones its first cooling step does.
-/

namespace Annealing

open State (Binary)

variable {σ : Type}

/-! ## Faults of single computations -/

theorem Number.toFloat?_error {a : Number} {fault : Fault} (hfault : a.toFloat? = .error fault) :
    fault = .overflow := by
  cases a with
  | float x => cases hfault
  | int i =>
    simp only [toFloat?] at hfault
    split at hfault
    · cases hfault
    · cases hfault
      rfl

theorem trialCount_error {sweeps : Value} {a : Number} (hnumber : sweeps.number? = some a)
    {fault : Fault} (hfault : trialCount sweeps = .error fault) : fault = .wrongKind := by
  rw [trialCount, Value.toNumber?_of_number hnumber] at hfault
  cases a with
  | int i => cases hfault
  | float x =>
    cases hfault
    rfl

/-- At a temperature that is a number the rule of doubles fails only in rounding it. -/
theorem metropolis_error {exp : Float → Float} {temperature : Value} {a : Number}
    (hnumber : temperature.number? = some a) {r delta : Float} {fault : Fault}
    (hfault : metropolis exp temperature (.float r) delta = .error fault) :
    a.toFloat? = .error fault := by
  obtain ⟨-, hsequence, -⟩ := Value.repeats_of_number hnumber
  unfold metropolis at hfault
  split at hfault
  · cases hfault
  · simp only [thresholds, hsequence, Value.toFloat?_of_number hnumber] at hfault
    cases hrounded : a.toFloat? with
    | error other =>
      rw [hrounded] at hfault
      cases hfault
      rfl
    | ok x =>
      rw [hrounded] at hfault
      cases hfault

/-- A temperature that is a number, and can be rounded to a double. -/
def Temperature.IsDouble (temperature : Temperature) : Prop :=
  ∃ value a x, temperature = .ofValue value ∧ value.number? = some a ∧ a.toFloat? = .ok x

/-- Where an anneal of parameters that work may be: at a double, and in a state of the graph. -/
structure Walk.AtDouble (size : Nat) (walk : Walk Float Temperature σ) : Prop where
  binary : Binary size walk.state
  isDouble : walk.temperature.IsDouble

/-! ## Workable parameters -/

namespace Params

/-- If there is any cooling step at all, then the first temperature is a double, and the number of
    sweeps is whole unless there is no node to sweep. -/
def Workable (params : Params) (size : Nat) : Prop :=
  params.finalTemperature.lt? params.initialTemperature = .ok true →
    (∃ x, params.initialTemperature.toFloat? = .ok x) ∧
      (size = 0 ∨ ∃ trials, trialCount params.sweepsPerTemperature = .ok trials)

theorem workable_of_read {value : Value} {params : Params}
    (hread : (Params.read (.value value)).result = .ok params) (size : Nat) :
    params.Workable size := by
  intro _
  obtain ⟨-, hsettled⟩ := validate_of_read hread
  obtain ⟨entries, rfl⟩ := hsettled value rfl
  have hinitial : Field.initialTemperature ≠ .sweepsPerTemperature := by decide
  obtain ⟨x, hx⟩ := exists_float_settle hinitial (supplied? entries .initialTemperature)
  obtain ⟨i, hi⟩ := exists_int_settle (supplied? entries .sweepsPerTemperature)
  exact ⟨⟨x, by simp only [ofFields, hx]; rfl⟩, .inr ⟨i.toNat, by simp only [ofFields, hi]; rfl⟩⟩

/-! ## Parameters as text -/

theorem isWritable_iff {params : Params} :
    params.isWritable = true ↔ ∀ field, (params.get field).isWritable = true := by
  have hwritable : params.isWritable = (Field.all.map params.get).all Value.isWritable := by
    simp [isWritable, toList, Field.all, Value.areWritable]
  rw [hwritable, List.all_map, List.all_eq_true]
  exact ⟨fun h field => h field field.mem_all, fun h field _ => h field⟩

/-- What is settled from the entries of a map is a double, a default or the integer part of a
    double, and none of them is too long. -/
theorem isWritable_settle (field : Field) (value? : Option Value) :
    (settle field value?).isWritable = true := by
  unfold settle
  cases hparsed : value?.bind field.parse? with
  | none => cases field <;> decide +kernel
  | some parsed =>
    obtain ⟨value, -, hvalue⟩ := Option.bind_eq_some_iff.mp hparsed
    cases field with
    | initialTemperature | coolingFactor | finalTemperature =>
      obtain ⟨x, -, rfl⟩ := Option.map_eq_some_iff.mp hvalue
      rfl
    | sweepsPerTemperature =>
      obtain ⟨i, hwhole, rfl⟩ := Option.map_eq_some_iff.mp hvalue
      obtain ⟨x, -, htruncate⟩ := Option.bind_eq_some_iff.mp hwhole
      obtain ⟨d, hd, rfl⟩ := Option.map_eq_some_iff.mp htruncate
      have hlimit : 2 ^ 53 * 2 ^ 971 ≤ Nat.pow 10 Text.digitLimit := by decide +kernel
      change (Value.int d.truncate).isWritable = true
      rw [Value.isWritable, decide_eq_true_eq]
      exact (Decimal.natAbs_truncate_lt hd le_rfl).trans_le hlimit

theorem isWritable_of_read {value : Value} {params : Params}
    (hread : (Params.read (.value value)).result = .ok params) : params.isWritable = true := by
  obtain ⟨-, hsettled⟩ := validate_of_read hread
  obtain ⟨entries, rfl⟩ := hsettled value rfl
  rw [isWritable_iff]
  intro field
  rw [get_ofFields]
  exact isWritable_settle field _

namespace Regular

variable {params : Params} {initial final : Number} {factor : Float}

/-- Accepted parameters that do not work cannot be computed with in one of two ways. -/
theorem cases_of_not_workable (hregular : params.Regular initial final factor)
    (hvalid : params.validate = .ok params) {size : Nat} (hbroken : ¬ params.Workable size) :
    final.lt initial = true ∧ (initial.toFloat? = .error .overflow ∨
      (∃ x, initial.toFloat? = .ok x) ∧ 0 < size ∧
        trialCount params.sweepsPerTemperature = .error .wrongKind) := by
  rw [Workable, Classical.not_imp, Value.lt?_of_number hregular.final_eq hregular.initial_eq,
    Value.toFloat?_of_number hregular.initial_eq, Except.ok.injEq] at hbroken
  obtain ⟨hhot, hbroken⟩ := hbroken
  refine ⟨hhot, ?_⟩
  cases hinitial : initial.toFloat? with
  | error fault => exact .inl (congrArg Except.error (Number.toFloat?_error hinitial))
  | ok x =>
    simp only [hinitial, Except.ok.injEq, exists_eq', true_and, not_or] at hbroken
    obtain ⟨hsize, hwhole⟩ := hbroken
    refine .inr ⟨⟨x, rfl⟩, Nat.pos_of_ne_zero hsize, ?_⟩
    obtain ⟨sweeps, hsweeps⟩ := numeric_of_validate hvalid .sweepsPerTemperature
    cases htrials : trialCount params.sweepsPerTemperature with
    | error fault => exact congrArg Except.error (trialCount_error hsweeps htrials)
    | ok trials => exact absurd ⟨trials, htrials⟩ hwhole

/-! ## Counting steps -/

theorem exists_cooler (hregular : params.Regular initial final factor) {temperature : Temperature}
    (hdouble : temperature.IsDouble) :
    ∃ cooler, params.schedule.cool temperature = .ok cooler ∧ cooler.IsDouble := by
  obtain ⟨value, a, x, rfl, hnumber, hx⟩ := hdouble
  refine ⟨.ofValue (.float (x * factor)), ?_, _, _, _, rfl, rfl, rfl⟩
  rw [hregular.cool_eq hnumber, hx]
  rfl

theorem hot_initial (hregular : params.Regular initial final factor) :
    params.schedule.hot params.schedule.initial = .ok (final.lt initial) :=
  hregular.hot_eq hregular.initial_eq

theorem isDouble_of_workable (hregular : params.Regular initial final factor) {size : Nat}
    (hworkable : params.Workable size) (hhot : final.lt initial = true) :
    params.schedule.initial.IsDouble := by
  have hcooled : params.finalTemperature.lt? params.initialTemperature = .ok true := by
    rw [Value.lt?_of_number hregular.final_eq hregular.initial_eq, hhot]
  obtain ⟨⟨x, hx⟩, -⟩ := hworkable hcooled
  rw [Value.toFloat?_of_number hregular.initial_eq] at hx
  exact ⟨_, initial, x, rfl, hregular.initial_eq, hx⟩

/-- Steps are counted without a fault if the first temperature is a double or not hot at all. -/
theorem exists_countSteps (hregular : params.Regular initial final factor)
    (hdouble : final.lt initial = true → params.schedule.initial.IsDouble) (limit : Nat) :
    ∃ steps?, params.schedule.countSteps limit = .ok steps? := by
  cases hhot : final.lt initial with
  | false =>
    cases limit with
    | zero => exact ⟨none, rfl⟩
    | succ limit =>
      refine ⟨some 0, ?_⟩
      rw [Schedule.countSteps, Schedule.countFrom, hregular.hot_initial, hhot]
  | true =>
    refine Schedule.exists_countFrom (P := Temperature.IsDouble) ?_
      (fun _ => hregular.exists_cooler) limit (hdouble hhot) 0
    rintro temperature ⟨value, a, x, rfl, hnumber, -⟩
    exact ⟨_, hregular.hot_eq hnumber⟩

theorem countSteps_error (hregular : params.Regular initial final factor)
    (hhot : final.lt initial = true) {fault : Fault} (hinitial : initial.toFloat? = .error fault)
    (limit : Nat) : params.schedule.countSteps (limit + 1) = .error fault := by
  have hcool : params.schedule.cool params.schedule.initial = .error fault := by
    change params.schedule.cool (.ofValue params.initialTemperature) = _
    rw [hregular.cool_eq hregular.initial_eq, hinitial]
    rfl
  rw [Schedule.countSteps, Schedule.countFrom, hregular.hot_initial, hhot]
  simp only [hcool]

/-! ## Anneals of doubles -/

section Doubles

variable {exp : Float → Float} {source : Source σ Float} {memory : Storage} {graph : Graph Float}

/-- A cooling step at a number fails where the trials cannot be counted, or where the number cannot
    be rounded. -/
theorem fault_of_coolingStep (hregular : params.Regular initial final factor)
    {walk : Walk Float Temperature σ} {value : Value} {a : Number}
    (htemperature : walk.temperature = .ofValue value) (hnumber : value.number? = some a)
    {fault : Fault} {stream : σ}
    (hstep : (params.plan (Engine.doubles exp source memory).accept).coolingStep source graph walk =
      (.error fault, stream)) :
    (0 < walk.state.size ∧ trialCount params.sweepsPerTemperature = .error fault) ∨
      a.toFloat? = .error fault := by
  have hcools : params.schedule.cool walk.temperature =
      a.toFloat?.map fun x => .ofValue (.float (x * factor)) := by
    rw [htemperature, hregular.cool_eq hnumber]
  rcases Plan.coolingStep_eq_error hstep with ⟨hstate, htrials | ⟨r, change, haccept⟩⟩ | hcool |
    ⟨cooler, hcool, hannounce⟩
  · exact .inl ⟨hstate, htrials⟩
  · change metropolis exp walk.temperature.toValue (.float r) change = _ at haccept
    rw [htemperature, Temperature.toValue_of_number hnumber] at haccept
    exact .inr (metropolis_error hnumber haccept)
  · have hcool := hcools.symm.trans hcool
    cases hrounded : a.toFloat? with
    | error other => exact .inr (by simpa [hrounded, Except.map] using hcool)
    | ok x => simp [hrounded, Except.map] at hcool
  · -- What a number is cooled to is a double, which can be announced.
    have hcool := hcools.symm.trans hcool
    cases hrounded : a.toFloat? with
    | error other => simp [hrounded, Except.map] at hcool
    | ok x =>
      rw [hrounded] at hcool
      cases hcool
      cases hannounce

theorem atDouble_coolingStep (hregular : params.Regular initial final factor)
    {walk next : Walk Float Temperature σ} {stream : σ} (hwalk : walk.AtDouble graph.size)
    (hstep : (params.plan (Engine.doubles exp source memory).accept).coolingStep source graph walk =
      (.ok next, stream)) : next.AtDouble graph.size := by
  refine ⟨Plan.coolingStep_binary hwalk.binary hstep, ?_⟩
  obtain ⟨-, hcool, -⟩ := Plan.coolingStep_eq_ok hstep
  obtain ⟨cooler, hcooled, hdouble⟩ := hregular.exists_cooler hwalk.isDouble
  change params.schedule.cool walk.temperature = _ at hcool
  rw [hcooled, Except.ok.injEq] at hcool
  exact hcool ▸ hdouble

/-- An anneal with parameters that work does not fail, whatever the draws and the stop signals. -/
theorem not_failed_of_workable (hregular : params.Regular initial final factor)
    (hworkable : params.Workable graph.size) (stops : List Signal) (limit : Nat) (start : σ)
    (fault : Fault) :
    ((params.plan (Engine.doubles exp source memory).accept).anneal source graph stops limit
      start).ending ≠ .failed fault := by
  intro hfailed
  set plan := params.plan (Engine.doubles exp source memory).accept
  set walk := plan.start source graph start
  have hinitial : plan.hot walk.temperature = .ok (final.lt initial) := hregular.hot_initial
  have hbinary : Binary graph.size walk.state := Plan.start_binary plan source graph start
  cases hhot : final.lt initial with
  | false =>
    rw [hhot] at hinitial
    cases limit with
    | zero => cases hfailed
    | succ limit =>
      rw [Plan.anneal, Plan.runFrom_succ, hinitial] at hfailed
      cases hfailed
  | true =>
    have hwalk : walk.AtDouble graph.size :=
      ⟨hbinary, hregular.isDouble_of_workable hworkable hhot⟩
    have hcooled : params.finalTemperature.lt? params.initialTemperature = .ok true := by
      rw [Value.lt?_of_number hregular.final_eq hregular.initial_eq, hhot]
    obtain ⟨-, hsweeps⟩ := hworkable hcooled
    obtain ⟨reached, ⟨hstate, value, a, x, htemperature, hnumber, hx⟩, hfault⟩ :=
      Plan.exists_walk_of_failed (P := Walk.AtDouble graph.size)
        (fun walk next stream hwalk hstep => hregular.atDouble_coolingStep hwalk hstep) hwalk
        hfailed
    cases hfault with
    | inl hcompare =>
      change params.schedule.hot reached.temperature = _ at hcompare
      rw [htemperature, hregular.hot_eq hnumber] at hcompare
      cases hcompare
    | inr hsweeping =>
      obtain ⟨-, stream, hstep⟩ := hsweeping
      cases hregular.fault_of_coolingStep htemperature hnumber hstep with
      | inl huncounted =>
        obtain ⟨hnodes, htrials⟩ := huncounted
        cases hsweeps with
        | inl hsize =>
          rw [hstate.size_eq, hsize] at hnodes
          exact absurd hnodes (Nat.lt_irrefl 0)
        | inr hwhole =>
          obtain ⟨trials, hwhole⟩ := hwhole
          rw [hwhole] at htrials
          cases htrials
      | inr hrounded =>
        rw [hx] at hrounded
        cases hrounded

variable (exp source memory) in
/-- With accepted parameters that do not work, the very first cooling step fails. -/
theorem exists_failed_of_not_workable (hregular : params.Regular initial final factor)
    (hvalid : params.validate = .ok params) (hbroken : ¬ params.Workable graph.size)
    (limit : Nat) (start : σ) :
    ∃ fault stream,
      (params.plan (Engine.doubles exp source memory).accept).anneal source graph [] (limit + 1)
        start = ⟨[], .failed fault, stream⟩ ∧
      (fault = .wrongKind ∧ trialCount params.sweepsPerTemperature = .error .wrongKind ∨
        fault = .overflow ∧ initial.toFloat? = .error .overflow) := by
  obtain ⟨hhot, hcause⟩ := hregular.cases_of_not_workable hvalid hbroken
  set plan := params.plan (Engine.doubles exp source memory).accept
  set walk := plan.start source graph start
  have hinitial : plan.hot walk.temperature = .ok true := by
    rw [← hhot]
    exact hregular.hot_initial
  have hfails : ∃ fault stream, plan.coolingStep source graph walk = (.error fault, stream) := by
    cases hcause with
    | inl hrounded =>
      have hcool : plan.cool walk.temperature = .error .overflow := by
        change params.schedule.cool (.ofValue params.initialTemperature) = _
        rw [hregular.cool_eq hregular.initial_eq, hrounded]
        rfl
      exact Plan.coolingStep_of_cool_error source graph hcool
    | inr hcounted =>
      obtain ⟨-, hsize, htrials⟩ := hcounted
      have hstate : walk.state.size = graph.size :=
        (Plan.start_binary plan source graph start).size_eq
      exact ⟨_, Plan.coolingStep_of_trials_error source graph (hstate ▸ hsize) htrials⟩
  obtain ⟨fault, stream, hstep⟩ := hfails
  refine ⟨fault, stream, Plan.anneal_of_coolingStep_error hinitial hstep limit, ?_⟩
  · cases hregular.fault_of_coolingStep rfl hregular.initial_eq hstep with
    | inl huncounted =>
      obtain ⟨-, htrials⟩ := huncounted
      obtain ⟨sweeps, hsweeps⟩ := numeric_of_validate hvalid .sweepsPerTemperature
      obtain rfl := trialCount_error hsweeps htrials
      exact .inl ⟨rfl, htrials⟩
    | inr hrounded =>
      obtain rfl := Number.toFloat?_error hrounded
      exact .inr ⟨rfl, hrounded⟩

end Doubles

end Regular

end Params

end Annealing
