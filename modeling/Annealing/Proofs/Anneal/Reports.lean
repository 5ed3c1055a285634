import Annealing.Params.Cooling
import Annealing.Proofs.Anneal.Sweeps
import Annealing.Random.Twister

/-! # What an anneal reports

`runFrom` is a loop over cooling steps.  `runFrom_succ` unrolls it once, and
`exists_walk_of_mem_reports` is the induction over it: what cooling steps keep holds of every
report.

* `runFrom_marksEnd` — the last report of an anneal that finished is marked, and no other one.
* `anneal_reports_binary` — every reported state is binary, whatever the arithmetic.
* `anneal_reports_energy` — with exact weights, every reported energy is that of its state.
-/

namespace Annealing

open State (Binary)

variable {ω τ σ ρ ε : Type}

/-! ## Unrolling -/

/-- The same run with earlier reports put before its own. -/
def Run.after (run : Run ω τ σ ε) (reports : List (Report ω τ)) : Run ω τ σ ε :=
  ⟨reports ++ run.reports, run.ending, run.stream⟩

/-- The last report is marked as finished if the run finished, and no other report is. -/
def Run.MarksEnd (run : Run ω τ σ ε) : Prop :=
  ∃ progress : List (Report ω τ), (∀ report ∈ progress, report.finished = false) ∧
    ((run.ending ≠ .finished ∧ run.reports = progress) ∨
      (run.ending = .finished ∧ ∃ last : Report ω τ, last.finished = true ∧
        run.reports = progress ++ [last]))

theorem Run.MarksEnd.after {run : Run ω τ σ ε} (hmarks : run.MarksEnd) {report : Report ω τ}
    (hreport : report.finished = false) : (run.after [report]).MarksEnd := by
  obtain ⟨progress, hprogress, hend⟩ := hmarks
  refine ⟨report :: progress, List.forall_mem_cons.mpr ⟨hreport, hprogress⟩, ?_⟩
  rcases hend with ⟨hending, hreports⟩ | ⟨hending, last, hlast, hreports⟩
  · exact Or.inl ⟨hending, by simp [Run.after, hreports]⟩
  · exact Or.inr ⟨hending, last, hlast, by simp [Run.after, hreports]⟩

/-- Whatever comes before another report is not marked as finished. -/
theorem Run.MarksEnd.unfinished {run : Run ω τ σ ε} (hmarks : run.MarksEnd)
    {before after : List (Report ω τ)} {report : Report ω τ}
    (hreports : run.reports = before ++ report :: after) :
    ∀ earlier ∈ before, earlier.finished = false := by
  obtain ⟨progress, hprogress, hend⟩ := hmarks
  have hsub : ∀ earlier ∈ before, earlier ∈ progress := by
    intro earlier hearlier
    have hdropLast : earlier ∈ run.reports.dropLast := by
      rw [hreports, List.dropLast_append_cons]
      exact List.mem_append_left _ hearlier
    rcases hend with ⟨-, hsame⟩ | ⟨-, last, -, hsame⟩
    · exact hsame ▸ List.dropLast_subset _ hdropLast
    · rwa [hsame, List.dropLast_concat] at hdropLast
  exact fun earlier hearlier => hprogress earlier (hsub earlier hearlier)

namespace Plan

section Loop

variable [OfNat ω 0] [Add ω] [Neg ω] (plan : Plan τ ω ρ ε) (source : Source σ ρ) (graph : Graph ω)
  (stops : List Signal)

/-- The reports that are handed along come first, and change nothing else. -/
theorem runFrom_after (limit : Nat) (walk : Walk ω τ σ) (reports : List (Report ω τ)) :
    plan.runFrom source graph stops limit walk reports =
      (plan.runFrom source graph stops limit walk []).after reports.reverse := by
  induction limit generalizing walk reports with
  | zero => simp [runFrom, Run.after]
  | succ limit ih =>
    simp only [runFrom]
    split
    · simp [Run.after]
    · simp [Run.after]
    · split
      · simp [Run.after]
      · split
        · simp [Run.after]
        · rename_i next _ _
          rw [ih next (next.report false :: reports), ih next [next.report false]]
          simp [Run.after]

/-- One turn of the loop: the look at the temperature, the look at the stop signals, and the
    cooling step with its report. -/
theorem runFrom_succ (limit : Nat) (walk : Walk ω τ σ) :
    plan.runFrom source graph stops (limit + 1) walk [] =
      match plan.hot walk.temperature with
      | .error fault => ⟨[], .failed fault, walk.stream⟩
      | .ok false => ⟨[walk.report true], .finished, walk.stream⟩
      | .ok true =>
        if stops.any (· walk.step) then ⟨[], .cancelled walk.step, walk.stream⟩
        else
          match plan.coolingStep source graph walk with
          | (.error fault, stream) => ⟨[], .failed fault, stream⟩
          | (.ok next, _) =>
            (plan.runFrom source graph stops limit next []).after [next.report false] := by
  rw [runFrom]
  cases plan.hot walk.temperature with
  | error fault => rfl
  | ok hot =>
    cases hot with
    | false => rfl
    | true =>
      simp only
      split
      · rfl
      · obtain ⟨result, after⟩ := plan.coolingStep source graph walk
        cases result with
        | error fault => rfl
        | ok next => exact runFrom_after plan source graph stops limit next [next.report false]

/-- Only the last report of an anneal that finished is marked as finished. -/
theorem runFrom_marksEnd (limit : Nat) (walk : Walk ω τ σ) :
    (plan.runFrom source graph stops limit walk []).MarksEnd := by
  induction limit generalizing walk with
  | zero => exact ⟨[], by simp, Or.inl ⟨by simp [runFrom], rfl⟩⟩
  | succ limit ih =>
    rw [runFrom_succ]
    split
    · exact ⟨[], by simp, Or.inl ⟨by simp, rfl⟩⟩
    · exact ⟨[], by simp, Or.inr ⟨rfl, walk.report true, rfl, rfl⟩⟩
    · split
      · exact ⟨[], by simp, Or.inl ⟨by simp, rfl⟩⟩
      · split
        · exact ⟨[], by simp, Or.inl ⟨by simp, rfl⟩⟩
        · rename_i next _ _
          exact (ih next).after rfl

/-- Each report tells where the anneal was at some time, and what cooling steps keep held there. -/
theorem exists_walk_of_mem_reports {P : Walk ω τ σ → Prop}
    (hkeep : ∀ walk next stream, P walk → plan.coolingStep source graph walk = (.ok next, stream) →
      P next)
    (limit : Nat) {walk : Walk ω τ σ} (hwalk : P walk) :
    ∀ report ∈ (plan.runFrom source graph stops limit walk []).reports,
      ∃ reached finished, P reached ∧ report = reached.report finished := by
  induction limit generalizing walk with
  | zero => simp [runFrom]
  | succ limit ih =>
    -- The next walk has the property again, and all later reports are those of its own run.
    intro report hreport
    rw [runFrom_succ] at hreport
    split at hreport
    · simp at hreport
    · exact ⟨walk, true, hwalk, by simpa using hreport⟩
    · split at hreport
      · simp at hreport
      · split at hreport
        · simp at hreport
        · rename_i next stream hstep
          have hnext : P next := hkeep walk next stream hwalk hstep
          rcases List.mem_cons.mp hreport with rfl | hreport
          · exact ⟨next, false, hnext, rfl⟩
          · exact ih hnext report hreport

omit [Neg ω] in
theorem start_binary (stream : σ) : Binary graph.size (plan.start source graph stream).state :=
  source.bits_binary graph.size stream

/-- Every reported state has one byte per node of the graph, zero or one. -/
theorem anneal_reports_binary (limit : Nat) (stream : σ) :
    ∀ report ∈ (plan.anneal source graph stops limit stream).reports,
      Binary graph.size report.state := by
  intro report hreport
  obtain ⟨reached, finished, hbinary, rfl⟩ :=
    exists_walk_of_mem_reports plan source graph stops
      (P := fun walk => Binary graph.size walk.state)
      (fun walk next stream hbinary hstep => coolingStep_binary hbinary hstep)
      limit (start_binary plan source graph stream) report hreport
  exact hbinary

end Loop

/-! ## Energies -/

section Energies

variable [AddCommGroup ω]

/-- The energy of an anneal is that of its state. -/
structure UpToDate (graph : Graph ω) (walk : Walk ω τ σ) : Prop where
  binary : Binary graph.size walk.state
  energy_eq : walk.energy = graph.energy walk.state

/-- Whatever the schedule, the rule of acceptance, the draws and the stop signals: every report of
    an anneal has a state of zeros and ones, one for each node, and the energy of that state. -/
theorem anneal_reports_energy {weigh : Value → Value → Except Fault ω} {coefficients : Coefficients}
    {graph : Graph ω} (hbuild : Graph.build weigh coefficients = .ok graph) (plan : Plan τ ω ρ ε)
    (source : Source σ ρ) (stops : List Signal) (limit : Nat) (stream : σ) :
    ∀ report ∈ (plan.anneal source graph stops limit stream).reports,
      report.state.size = graph.size ∧ (∀ b ∈ report.state, b = 0 ∨ b = 1) ∧
        report.energy = graph.energy report.state := by
  have hwf := Graph.wellFormed_of_build hbuild
  have hstart : UpToDate graph (plan.start source graph stream) :=
    ⟨start_binary plan source graph stream, rfl⟩
  intro report hreport
  obtain ⟨reached, finished, hreached, rfl⟩ :=
    exists_walk_of_mem_reports plan source graph stops (P := UpToDate graph)
      (fun walk next stream h hstep =>
        ⟨coolingStep_binary h.binary hstep, coolingStep_energy hwf h.binary h.energy_eq hstep⟩)
      limit hstart report hreport
  exact ⟨hreached.binary.size_eq, fun b => hreached.binary.of_mem, hreached.energy_eq⟩

end Energies

end Plan

/-- Parameters for examples: from ten down to one by halves, with five trials each. -/
def Params.sample : Params :=
  ⟨.float 10, .float 0.5, .float 1, .int 5⟩

theorem Plan.anneal_reports_energy_sample :
    Graph.build Coefficients.readExact Coefficients.sample = .ok Graph.sample ∧
      ∀ report ∈ ((Params.sample.plan fun _ _ delta => .ok (decide (delta ≤ 0))).anneal
          Twister.source Graph.sample [fun step => 2 ≤ step] stepLimit (Twister.seeded 1)).reports,
        report.state.size = Graph.sample.size ∧ (∀ b ∈ report.state, b = 0 ∨ b = 1) ∧
          report.energy = Graph.sample.energy report.state :=
  ⟨Graph.build_sample, anneal_reports_energy Graph.build_sample _ _ _ _ _⟩

end Annealing
