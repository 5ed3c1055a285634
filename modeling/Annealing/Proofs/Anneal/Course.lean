import Annealing.Proofs.Anneal.Cancellation

/-! # The course of an anneal

Where no stop signal is set, an anneal makes one cooling step after the other, each from a
temperature that is still hot, until the schedule is through or a cooling step fails.  How many
steps there are is what `countSteps` counts, which looks at the temperatures alone.

* `Schedule.countSteps_eq_some_iff` — the first temperature that is not hot.
* `Cools` — cooling steps in a row, with the report of each.
* `Cools.of_getElem?` — which step a report is of, and which temperature that step starts from.
* `exists_cools` — a run is such a row, and ends with a repetition of its last report or with the
  fault of a cooling step.
* `anneal_course` — the reports of a whole anneal.
-/

namespace Annealing

variable {ω τ σ ρ ε : Type}

/-- The temperature that some cooling steps in turn lead to. -/
def Schedule.cooled (schedule : Schedule τ ε) : Nat → Except ε τ
  | 0 => .ok schedule.initial
  | steps + 1 => (schedule.cooled steps).bind schedule.cool

namespace Schedule

variable {schedule : Schedule τ ε} {limit steps n : Nat} {temperature : τ}

/-- Is the temperature after some cooling steps still hot? -/
def hotAfter (schedule : Schedule τ ε) (steps : Nat) : Except ε Bool :=
  (schedule.cooled steps).bind schedule.hot

theorem hotAfter_of_cooled (hcooled : schedule.cooled steps = .ok temperature) :
    schedule.hotAfter steps = schedule.hot temperature := by
  rw [hotAfter, hcooled]
  rfl

/-- A count comes to an end at the first temperature that is not hot, if the limit is not reached
    before that. -/
theorem countFrom_eq_some_iff (hcooled : schedule.cooled steps = .ok temperature) :
    schedule.countFrom limit temperature steps = .ok (some n) ↔
      steps ≤ n ∧ n < steps + limit ∧ (∀ k, steps ≤ k → k < n → schedule.hotAfter k = .ok true) ∧
        schedule.hotAfter n = .ok false := by
  induction limit generalizing temperature steps with
  | zero =>
    refine iff_of_false (fun h => by cases h) ?_
    rintro ⟨hle, hlt, -⟩
    omega
  | succ limit ih =>
    have hnow := hotAfter_of_cooled hcooled
    rw [countFrom]
    cases hhot : schedule.hot temperature with
    | error fault =>
      rw [hhot] at hnow
      refine iff_of_false (by simp) ?_
      rintro ⟨hle, -, hwarm, hcold⟩
      rcases hle.lt_or_eq with hlt | rfl
      · cases hnow.symm.trans (hwarm steps le_rfl hlt)
      · cases hnow.symm.trans hcold
    | ok hot =>
      rw [hhot] at hnow
      cases hot with
      | false =>
        constructor
        · rintro ⟨⟩
          exact ⟨le_rfl, by omega, fun k hle hlt => absurd hlt (not_lt.mpr hle), hnow⟩
        · rintro ⟨hle, -, hwarm, -⟩
          rcases hle.lt_or_eq with hlt | rfl
          · cases hnow.symm.trans (hwarm steps le_rfl hlt)
          · rfl
      | true =>
        -- The count does not end here, so it is the count from the next temperature.
        have hnext : schedule.cooled (steps + 1) = schedule.cool temperature := by
          rw [cooled, hcooled]
          rfl
        have hlater : steps ≤ n → schedule.hotAfter n = .ok false → steps + 1 ≤ n := by
          rintro hle hcold
          rcases hle.lt_or_eq with hlt | rfl
          · exact hlt
          · cases hnow.symm.trans hcold
        cases hcool : schedule.cool temperature with
        | error fault =>
          have hfails : schedule.hotAfter (steps + 1) = .error fault := by
            rw [hotAfter, hnext, hcool]
            rfl
          refine iff_of_false (by simp) ?_
          rintro ⟨hle, -, hwarm, hcold⟩
          rcases (hlater hle hcold).lt_or_eq with hlt | rfl
          · cases hfails.symm.trans (hwarm (steps + 1) (Nat.le_succ _) hlt)
          · cases hfails.symm.trans hcold
        | ok cooler =>
          refine (ih (hnext.trans hcool)).trans ⟨?_, ?_⟩
          · rintro ⟨hle, hlt, hwarm, hcold⟩
            refine ⟨by omega, by omega, fun k hk hkn => ?_, hcold⟩
            rcases hk.lt_or_eq with hk | rfl
            · exact hwarm k hk hkn
            · exact hnow
          · rintro ⟨hle, hlt, hwarm, hcold⟩
            exact ⟨hlater hle hcold, by omega, fun k hk => hwarm k (by omega), hcold⟩

/-- The number of cooling steps is that of the first temperature that is not hot. -/
theorem countSteps_eq_some_iff :
    schedule.countSteps limit = .ok (some n) ↔
      n < limit ∧ (∀ k < n, schedule.hotAfter k = .ok true) ∧ schedule.hotAfter n = .ok false := by
  rw [countSteps, countFrom_eq_some_iff rfl]
  simp

end Schedule

namespace Plan

section Course

variable [OfNat ω 0] [Add ω] [Neg ω] (plan : Plan τ ω ρ ε) (source : Source σ ρ) (graph : Graph ω)

/-! ## Cooling steps in a row -/

/-- The cooling steps from one walk to another, each from a hot temperature, and their reports. -/
inductive Cools : Walk ω τ σ → List (Report ω τ) → Walk ω τ σ → Prop
  | refl (walk : Walk ω τ σ) : Cools walk [] walk
  | step {walk next last : Walk ω τ σ} {reports : List (Report ω τ)} {stream : σ}
      (hhot : plan.hot walk.temperature = .ok true)
      (hstep : plan.coolingStep source graph walk = (.ok next, stream))
      (hrest : Cools next reports last) : Cools walk (next.report false :: reports) last

variable {plan source graph} {walk last : Walk ω τ σ} {reports : List (Report ω τ)}

/-- A cooling step is counted, and leads to the next temperature of the schedule. -/
theorem cooled_coolingStep {next : Walk ω τ σ} {stream : σ}
    (hcooled : plan.cooled walk.step = .ok walk.temperature)
    (hstep : plan.coolingStep source graph walk = (.ok next, stream)) :
    next.step = walk.step + 1 ∧ plan.cooled next.step = .ok next.temperature := by
  obtain ⟨-, hcool, -, -, hnext⟩ := coolingStep_eq_ok hstep
  have hcount : next.step = walk.step + 1 := by rw [hnext]
  refine ⟨hcount, ?_⟩
  rw [hcount, Schedule.cooled, hcooled]
  exact hcool

namespace Cools

/-- The last walk repeats the last report, or the first walk if there is none. -/
theorem report_eq (hcools : Cools plan source graph walk reports last) :
    last.report false = reports.getLast?.getD (walk.report false) := by
  induction hcools with
  | refl walk => rfl
  | @step walk next last reports stream hhot hstep hrest ih =>
    rw [ih, List.getLast?_cons, Option.getD_some]

/-- Each report is of a step of its own, which starts from what was reported before it, at a
    temperature of the schedule that is still hot. -/
theorem of_getElem? (hcools : Cools plan source graph walk reports last)
    (hcooled : plan.cooled walk.step = .ok walk.temperature) {k : Nat} {report : Report ω τ}
    (hreport : reports[k]? = some report) :
    report.step = walk.step + k + 1 ∧ report.finished = false ∧
      plan.cooled (walk.step + k + 1) = .ok report.temperature ∧
      ∃ before next stream, (walk.report false :: reports)[k]? = some (before.report false) ∧
        plan.cooled (walk.step + k) = .ok before.temperature ∧
        plan.hot before.temperature = .ok true ∧
        plan.coolingStep source graph before = (.ok next, stream) ∧
        report = next.report false := by
  induction hcools generalizing k with
  | refl walk => cases hreport
  | @step walk next last reports stream hhot hstep hrest ih =>
    obtain ⟨hcount, hnext⟩ := cooled_coolingStep hcooled hstep
    cases k with
    | zero =>
      cases hreport
      refine ⟨hcount, rfl, ?_, walk, next, stream, rfl, hcooled, hhot, hstep, rfl⟩
      rw [Nat.add_zero, ← hcount]
      exact hnext
    | succ k =>
      have hrest := ih hnext hreport
      rw [hcount, Nat.add_right_comm walk.step 1 k] at hrest
      exact hrest

theorem unfinished (hcools : Cools plan source graph walk reports last) :
    ∀ report ∈ reports, report.finished = false := by
  induction hcools with
  | refl walk => simp
  | step _ _ _ ih => exact List.forall_mem_cons.mpr ⟨rfl, ih⟩

theorem step_eq (hcools : Cools plan source graph walk reports last) :
    last.step = walk.step + reports.length := by
  induction hcools with
  | refl walk => rfl
  | @step walk next last reports stream hhot hstep hrest ih =>
    obtain ⟨-, -, -, -, hnext⟩ := coolingStep_eq_ok hstep
    have hcount : next.step = walk.step + 1 := by rw [hnext]
    rw [ih, hcount, List.length_cons]
    omega

end Cools

/-! ## Runs -/

variable (source graph)

/-- A run whose schedule ends after `n` steps makes all of them and repeats its last report, or one
    of them fails. -/
theorem exists_cools {limit n : Nat}
    (hcount : plan.countFrom limit walk.temperature walk.step = .ok (some n)) :
    ∃ reports last, Cools plan source graph walk reports last ∧
      ((last.step = n ∧ plan.hot last.temperature = .ok false ∧
          plan.runFrom source graph [] limit walk [] =
            ⟨reports ++ [last.report true], .finished, last.stream⟩) ∨
        (last.step < n ∧ ∃ fault stream,
          plan.coolingStep source graph last = (.error fault, stream) ∧
            plan.runFrom source graph [] limit walk [] = ⟨reports, .failed fault, stream⟩)) := by
  induction limit generalizing walk with
  | zero => cases hcount
  | succ limit ih =>
    cases Schedule.countFrom_eq_some hcount with
    | inl hdone =>
      refine ⟨[], walk, .refl walk, .inl ⟨hdone.2, hdone.1, ?_⟩⟩
      rw [runFrom_succ, hdone.1]
      rfl
    | inr hgoes =>
      obtain ⟨hhot, cooler, hcool, hrest⟩ := hgoes
      cases hstep : plan.coolingStep source graph walk with
      | mk result stream =>
        cases result with
        | error fault =>
          refine ⟨[], walk, .refl walk,
            .inr ⟨Schedule.le_of_countFrom hrest, fault, stream, hstep, ?_⟩⟩
          rw [runFrom_succ, hhot, hstep]
          rfl
        | ok next =>
          obtain ⟨-, hcooled, -, -, hnext⟩ := coolingStep_eq_ok hstep
          obtain rfl : cooler = next.temperature := by rwa [hcool, Except.ok.injEq] at hcooled
          have hstep_eq : next.step = walk.step + 1 := by rw [hnext]
          rw [← hstep_eq] at hrest
          have hrun : plan.runFrom source graph [] (limit + 1) walk [] =
              (plan.runFrom source graph [] limit next []).after [next.report false] := by
            rw [runFrom_succ, hhot, hstep]
            rfl
          obtain ⟨reports, last, hcools, hend⟩ := ih hrest
          refine ⟨next.report false :: reports, last, .step hhot hstep hcools, ?_⟩
          rw [hrun]
          rcases hend with ⟨hlast, hcold, hreports⟩ | ⟨hlast, fault, after, hfails, hreports⟩
          · exact .inl ⟨hlast, hcold, by rw [hreports]; rfl⟩
          · exact .inr ⟨hlast, fault, after, hfails, by rw [hreports]; rfl⟩

/-- The anneal of a plan whose schedule ends after `n` cooling steps, while no stop signal is set.
    Whatever it is that temperatures are compared and multiplied by, the report of the step after
    `k` others tells that it is that one, is not the last one, and has the initial temperature
    cooled `k + 1` times; its step started from what was reported before, at a temperature that was
    hot.
    After all `n` steps comes one more report, the only one marked as finished.  Its temperature is
    no longer hot, and it repeats the report before it, or the start where there is none.

    The only thing that can come in between is the fault of a cooling step, and it does not where
    trials are decided on and temperatures announced. -/
theorem anneal_course {limit n : Nat} (hends : plan.countSteps limit = .ok (some n))
    {stops : List Signal} (hunset : ∀ k < n, ¬ SetAt stops k) (stream : σ) :
    let run := plan.anneal source graph stops limit stream
    let start := plan.start source graph stream
    ∃ (progress : List (Report ω τ)) (last : Walk ω τ σ),
      (∀ k report, progress[k]? = some report →
        report.step = k + 1 ∧ report.finished = false ∧
          plan.cooled (k + 1) = .ok report.temperature ∧
          ∃ before next after, (start.report false :: progress)[k]? = some (before.report false) ∧
            plan.cooled k = .ok before.temperature ∧ plan.hot before.temperature = .ok true ∧
            plan.coolingStep source graph before = (.ok next, after) ∧
            report = next.report false) ∧
      last.report false = progress.getLast?.getD (start.report false) ∧
      ((progress.length = n ∧ run.ending = .finished ∧
          run.reports = progress ++ [last.report true] ∧
          plan.hot last.temperature = .ok false) ∨
        (progress.length < n ∧ ∃ fault after,
          plan.coolingStep source graph last = (.error fault, after) ∧
            run.ending = .failed fault ∧ run.reports = progress)) ∧
      ∀ P : τ → Prop, plan.Steady P → P plan.initial → run.ending = .finished := by
  intro run start
  have hcount : plan.countFrom limit start.temperature start.step = .ok (some n) := hends
  have hrun : run = plan.runFrom source graph [] limit start [] :=
    runFrom_uncut source graph hcount fun k _ hk _ => hunset k hk
  have hzero : start.step = 0 := rfl
  have hcooled : plan.cooled start.step = .ok start.temperature := rfl
  obtain ⟨progress, last, hcools, hend⟩ := exists_cools source graph hcount
  have hlength : last.step = progress.length := by
    rw [hcools.step_eq, hzero, Nat.zero_add]
  refine ⟨progress, last, fun k report hreport => ?_, hcools.report_eq, ?_,
    fun P hsteady hinitial => ?_⟩
  · have hshape := hcools.of_getElem? hcooled hreport
    rwa [hzero, Nat.zero_add] at hshape
  · rw [hlength] at hend
    rcases hend with ⟨hlast, hcold, hreports⟩ | ⟨hlast, fault, after, hfails, hreports⟩
    · exact .inl ⟨hlast, by rw [hrun, hreports], by rw [hrun, hreports], hcold⟩
    · exact .inr ⟨hlast, fault, after, hfails, by rw [hrun, hreports], by rw [hrun, hreports]⟩
  · rw [hrun]
    exact (runFrom_finished source graph hsteady hinitial hcount).1

end Course

theorem anneal_course_sample :
    let plan := Params.sample.plan Engine.downhill.accept
    let stops : List Signal := [fun step => 4 ≤ step]
    let run := plan.anneal Twister.source Graph.sample stops stepLimit (Twister.seeded 1)
    plan.countSteps stepLimit = .ok (some 4) ∧ (∀ k < 4, ¬ SetAt stops k) ∧
      ∃ (progress : List (Report ℚ Temperature)) (last : Report ℚ Temperature),
        run.reports = progress ++ [last] ∧ progress.length = 4 ∧ last.finished = true ∧
          plan.hot last.temperature = .ok false ∧
          ∀ k report, progress[k]? = some report →
            report.step = k + 1 ∧ plan.cooled (k + 1) = .ok report.temperature := by
  intro plan stops run
  have hends : plan.countSteps stepLimit = .ok (some 4) := rfl
  have hunset : ∀ k < 4, ¬ SetAt stops k := by
    simp [stops, SetAt]
  have hsteady : plan.Steady Temperature.IsNumber :=
    Params.steady_of_factor (fun _ _ _ _ _ => ⟨_, rfl⟩) rfl ⟨5, rfl⟩
  obtain ⟨progress, last, hshape, -, hend, hfinished⟩ := anneal_course Twister.source
    Graph.sample hends hunset (Twister.seeded 1)
  have hending := hfinished _ hsteady ⟨_, _, rfl, rfl⟩
  rcases hend with ⟨hlength, -, hreports, hcold⟩ | ⟨-, fault, -, -, hfailed, -⟩
  · refine ⟨hends, hunset, progress, last.report true, hreports, hlength, rfl, hcold, ?_⟩
    intro k report hreport
    obtain ⟨hstep, -, hcooled, -⟩ := hshape k report hreport
    exact ⟨hstep, hcooled⟩
  · rw [hending] at hfailed
    cases hfailed

end Plan

end Annealing
