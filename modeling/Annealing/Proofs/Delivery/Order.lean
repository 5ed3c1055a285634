import Annealing.Proofs.Delivery.Outlook
import Annealing.Proofs.Graph.WellFormed

/-! # Delivery in every order

However the steps of producer and consumer interleave, the callback is called on the reports of
the anneal that is run alone, in their order, and the future ends as that anneal ends.  A callback
that raises a fault cuts this short at the call that raises it.

The callback and the future share the assignment of the last report.  So the result is what the
last call leaves of it, which is the assignment itself if the callback changes none.

* `attend_messages`, `handOver_reports` — calls that pass are made one after the other.
* `attend_run` — if all calls pass, the future ends as the anneal does.
* `attend_failing` — a call that raises a fault is the last one.
* `delivery_of_run` — the calls and the future of every interleaving, told from the reports.
* `exists_run_differs` — a callback that takes the result away, and a solver without a future.
-/

namespace Annealing

open State (Binary)

variable {ω σ ρ : Type}

/-! ## Calls in sequence -/

/-- No call of a list raises a fault, if the calls are made after earlier ones, the latest of
    these first. -/
def Callback.Passes (callback : Callback) : List Call → List Call → Prop
  | _, [] => True
  | earlier, call :: calls =>
    (∃ left, callback earlier call = .ok left) ∧ Passes callback (call :: earlier) calls

/-- A call that raises no fault leaves its assignment as it is. -/
def Callback.Spares (callback : Callback) : Prop :=
  ∀ earlier call left, callback earlier call = .ok left → left = Solution.assignment call.1

theorem Callback.passes_of_ok {callback : Callback}
    (hok : ∀ earlier call, ∃ left, callback earlier call = .ok left) (earlier calls : List Call) :
    callback.Passes earlier calls := by
  induction calls generalizing earlier with
  | nil => trivial
  | cons call calls ih => exact ⟨hok earlier call, ih (call :: earlier)⟩

theorem Solver.silent_passes (earlier calls : List Call) : silent.Passes earlier calls :=
  Callback.passes_of_ok (fun _ _ => ⟨_, rfl⟩) earlier calls

theorem Solver.silent_spares : silent.Spares := by
  intro earlier call left hleft
  cases hleft
  rfl

section Sequence

variable {graph : Graph ω} {callback : Callback} {calls : List Call}
  {reports : List (Report ω Temperature)}

/-- Messages whose calls pass, and of which none is the last one, are met one after the other. -/
theorem attend_messages (hunfinished : ∀ report ∈ reports, report.finished = false)
    (hpasses : callback.Passes calls (reports.map (Solver.callOf graph)))
    (messages : List (Message ω)) :
    attend graph callback calls (reports.map .report ++ messages) =
      attend graph callback ((reports.map (Solver.callOf graph)).reverse ++ calls) messages := by
  induction reports generalizing calls with
  | nil => rfl
  | cons report reports ih =>
    obtain ⟨hreport, hunfinished⟩ := List.forall_mem_cons.mp hunfinished
    obtain ⟨⟨left, hpassed⟩, hpasses⟩ := hpasses
    simp only [List.map_cons, List.cons_append, attend, hpassed, hreport, Bool.false_eq_true,
      if_false, List.reverse_cons, List.append_assoc, List.nil_append]
    exact ih hunfinished hpasses

/-- Reports whose calls pass, and of which none is the last one, are handed over one after the
    other. -/
theorem handOver_reports (hunfinished : ∀ report ∈ reports, report.finished = false)
    (hpasses : callback.Passes calls (reports.map (Solver.callOf graph))) (ending : Ending Fault)
    (later : List (Report ω Temperature)) :
    Solver.handOver graph callback ending calls (reports ++ later) =
      Solver.handOver graph callback ending
        ((reports.map (Solver.callOf graph)).reverse ++ calls) later := by
  induction reports generalizing calls with
  | nil => rfl
  | cons report reports ih =>
    obtain ⟨hreport, hunfinished⟩ := List.forall_mem_cons.mp hunfinished
    obtain ⟨⟨left, hpassed⟩, hpasses⟩ := hpasses
    simp only [List.map_cons, List.cons_append, Solver.handOver, hpassed, hreport,
      Bool.false_eq_true, if_false, List.reverse_cons, List.append_assoc, List.nil_append]
    exact ih hunfinished hpasses

theorem Callback.Passes.append {passed later : List Call}
    (hpasses : callback.Passes calls (passed ++ later)) :
    callback.Passes calls passed ∧ callback.Passes (passed.reverse ++ calls) later := by
  induction passed generalizing calls with
  | nil => exact ⟨trivial, hpasses⟩
  | cons call passed ih =>
    obtain ⟨hpassed, hpasses⟩ := hpasses
    obtain ⟨hfirst, hlater⟩ := ih hpasses
    exact ⟨⟨hpassed, hfirst⟩, by simpa using hlater⟩

/-- Reports whose calls pass are handed over up to the last one, and the result is what its call
    leaves. -/
theorem handOver_finished {last : Report ω Temperature}
    (hunfinished : ∀ report ∈ reports, report.finished = false) (hlast : last.finished = true)
    (hpasses : callback.Passes [] ((reports ++ [last]).map (Solver.callOf graph)))
    (ending : Ending Fault) :
    Solver.handOver graph callback ending [] (reports ++ [last]) =
      ⟨(reports ++ [last]).map (Solver.callOf graph),
        callback (reports.map (Solver.callOf graph)).reverse (Solver.callOf graph last)⟩ := by
  rw [List.map_append] at hpasses
  obtain ⟨hearlier, ⟨left, hcall⟩, -⟩ := hpasses.append
  rw [List.append_nil] at hcall
  rw [handOver_reports hunfinished hearlier]
  simp [Solver.handOver, hcall, hlast]

/-- If none of them is the last one, the result is the fault of the anneal. -/
theorem handOver_unfinished (hunfinished : ∀ report ∈ reports, report.finished = false)
    (hpasses : callback.Passes [] (reports.map (Solver.callOf graph))) (ending : Ending Fault) :
    Solver.handOver graph callback ending [] reports =
      ⟨reports.map (Solver.callOf graph), .error (Solver.faultOf ending)⟩ := by
  have hreports := handOver_reports hunfinished hpasses ending []
  rw [List.append_nil, List.append_nil] at hreports
  rw [hreports, Solver.handOver, List.reverse_reverse]

/-- Every call that is made is an earlier one or that of a report. -/
theorem mem_of_attend {messages : List (Message ω)} {final : List Call}
    {result : Except Fault Assignment}
    (hattend : attend graph callback calls messages = some (final, result)) :
    ∀ call ∈ final, call ∈ calls ∨
      ∃ report, .report report ∈ messages ∧ call = Solver.callOf graph report := by
  induction messages generalizing calls with
  | nil => cases hattend
  | cons message messages ih =>
    cases message with
    | failure fault =>
      cases hattend
      exact fun call hcall => .inl hcall
    | report report =>
      have hmem : ∀ call ∈ Solver.callOf graph report :: calls, call ∈ calls ∨
          ∃ met, .report met ∈ Message.report report :: messages ∧
            call = Solver.callOf graph met := by
        intro call hcall
        rcases List.mem_cons.mp hcall with rfl | hcall
        · exact .inr ⟨report, List.mem_cons_self, rfl⟩
        · exact .inl hcall
      simp only [attend] at hattend
      split at hattend
      · cases hattend
        exact hmem
      · split at hattend
        · cases hattend
          exact hmem
        · intro call hcall
          rcases ih hattend call hcall with hearlier | ⟨met, hmet, rfl⟩
          · exact hmem call hearlier
          · exact .inr ⟨met, List.mem_cons_of_mem _ hmet, rfl⟩

end Sequence

/-! ## A whole run -/

section Whole

variable {graph : Graph ω} {callback : Callback} {run : Run ω Temperature σ Fault}

/-- If every call passes, there is one for each report, and the future ends as the run does.  If the
    run finishes, it ends with what the last call leaves of its assignment. -/
theorem attend_run (hmarks : run.MarksEnd)
    (hpasses : callback.Passes [] (run.reports.map (Solver.callOf graph))) {calls : List Call}
    {result : Except Fault Assignment}
    (hattend : attend graph callback [] run.messages = some (calls, result)) :
    calls.reverse = run.reports.map (Solver.callOf graph) ∧
      Solver.handOver graph callback run.ending [] run.reports =
        ⟨run.reports.map (Solver.callOf graph), result⟩ ∧
      match run.ending with
      | .finished => ∃ earlier last left, run.reports = earlier ++ [last] ∧
          last.finished = true ∧ callback (earlier.map (Solver.callOf graph)).reverse
            (Solver.callOf graph last) = .ok left ∧ result = .ok left
      | .cancelled steps => result = .error (.cancelled steps)
      | .failed fault => result = .error fault
      | .unfinished => False := by
  obtain ⟨reports, ending, stream⟩ := run
  obtain ⟨progress, hprogress, hend⟩ := hmarks
  simp only at hpasses hend hattend ⊢
  rcases hend with ⟨hending, rfl⟩ | ⟨rfl, last, hlast, rfl⟩
  -- After all reports comes the failure, if there is one.
  · rw [handOver_unfinished hprogress hpasses]
    rw [Run.messages, attend_messages hprogress hpasses] at hattend
    cases ending with
    | finished => exact absurd rfl hending
    | unfinished => cases hattend
    | cancelled steps => cases hattend; simp [Solver.faultOf]
    | failed fault => cases hattend; simp [Solver.faultOf]
  -- The last report is the finished one, and its call ends the delivery.
  · rw [handOver_finished hprogress hlast hpasses]
    rw [List.map_append] at hpasses
    obtain ⟨hearlier, ⟨left, hcall⟩, -⟩ := hpasses.append
    rw [List.append_nil] at hcall
    rw [Run.messages, List.map_append, List.append_assoc,
      attend_messages hprogress hearlier] at hattend
    simp only [List.map_cons, List.map_nil, List.append_nil, attend, hcall, hlast, if_true,
      Option.some.injEq, Prod.mk.injEq] at hattend
    obtain ⟨rfl, rfl⟩ := hattend
    exact ⟨by simp, by rw [hcall], progress, last, left, rfl, hlast, hcall, rfl⟩

/-- If a call raises a fault after calls that pass, it is the last one, and the future ends with
    this fault. -/
theorem attend_failing (hmarks : run.MarksEnd) {passed rest : List Call} {call : Call}
    {fault : Fault} (hcalls : run.reports.map (Solver.callOf graph) = passed ++ call :: rest)
    (hpasses : callback.Passes [] passed) (hfault : callback passed.reverse call = .error fault) :
    attend graph callback [] run.messages = some (call :: passed.reverse, .error fault) ∧
      Solver.handOver graph callback run.ending [] run.reports = ⟨passed, .error fault⟩ := by
  obtain ⟨before, others, hreports, rfl, hothers⟩ := List.map_eq_append_iff.mp hcalls
  obtain ⟨report, after, rfl, rfl, rfl⟩ := List.map_eq_cons_iff.mp hothers
  have hunfinished := hmarks.unfinished hreports
  constructor
  · rw [Run.messages, hreports, List.map_append, List.append_assoc,
      attend_messages hunfinished hpasses]
    simp only [List.map_cons, List.cons_append, attend, List.append_nil, hfault]
  · rw [hreports, handOver_reports hunfinished hpasses]
    simp only [Solver.handOver, List.append_nil, hfault, List.reverse_reverse]

end Whole

/-! ## Every interleaving -/

section Engines

variable [OfNat ω 0] [Add ω] [Neg ω] {engine : Engine ω σ ρ} {solver : Solver} {graph : Graph ω}

theorem Engine.annealWithin_marksEnd (limit : Nat) (params : Params) (seed? : Option Int)
    (stops : List Signal) (stream : σ) :
    (engine.annealWithin limit params seed? graph stops stream).MarksEnd := by
  unfold annealWithin
  split
  · exact ⟨[], by simp, Or.inl ⟨by simp, rfl⟩⟩
  · exact Plan.runFrom_marksEnd _ _ _ _ _ _

theorem Engine.annealWithin_binary (limit : Nat) (params : Params) (seed? : Option Int)
    (stops : List Signal) (stream : σ) :
    ∀ report ∈ (engine.annealWithin limit params seed? graph stops stream).reports,
      Binary graph.size report.state := by
  unfold annealWithin
  split
  · simp
  · exact Plan.anneal_reports_binary _ _ _ _ _ _

omit [Neg ω] in
/-- The assignment of a binary state gives a bit to each variable of the problem, and to no other
    one. -/
theorem callOf_of_binary (hgraph : solver.graph engine = .ok graph)
    {report : Report ω Temperature} (hbinary : Binary graph.size report.state) :
    solver.coefficients.vars = .ok ((Solver.callOf graph report).1.map Prod.fst) ∧
      ∀ entry ∈ (Solver.callOf graph report).1, entry.2 = 0 ∨ entry.2 = 1 := by
  obtain ⟨terms, hread, rfl⟩ := Graph.build_eq_ok_iff.mp hgraph
  have hlength : (Graph.varsOf terms).length ≤ report.state.toList.length :=
    hbinary.size_eq.ge
  constructor
  · rw [Coefficients.vars_of_readTerms hread]
    simp only [Solver.callOf, Graph.toAssignment, Graph.vars_ofTerms]
    rw [List.map_fst_zip hlength]
  · intro entry hentry
    exact hbinary.of_mem (Array.mem_toList_iff.mp (List.of_mem_zip hentry).2)

/-- Let the caller leave its stop signal alone, and let the steps of the producer and the consumer
    interleave in any way up to the end of the future.  Then the callback is called on the
    assignments and temperatures of the reports of the anneal, each once and in order, and the
    future ends as the anneal does; a call that raises a fault is the last one, and the fault is
    that of the future.  If the anneal finishes, the result is what the last call leaves of the
    assignment of the finished report, so it is this assignment if the callback changes none.  All
    this is what the solver delivers, if it gets as far as to deliver anything.  Every assignment
    that is handed out gives a bit to each variable of the problem and to nothing else, and the stop
    signal is as it was. -/
theorem delivery_of_run {callback : Callback} {schedule : List Actor} {stop? : Option Bool}
    {stream : σ} {relay : Relay ω σ} {result : Except Fault Assignment} {limit : Nat}
    (hgraph : solver.graph engine = .ok graph) (hcaller : Actor.caller ∉ schedule)
    (hrun : Relay.run engine solver graph callback schedule (.initial stop? stream) = some relay)
    (hfuture : relay.future? = some result) (hlimit : schedule.length ≤ limit) :
    let run :=
      engine.annealWithin limit solver.params solver.seed? graph (steadySignals stop?) stream
    let images := run.reports.map (Solver.callOf graph)
    let delivery := Solver.handOver graph callback run.ending [] run.reports
    (limit = stepLimit → ∀ text steps?, solver.opening graph = .ok text →
      solver.params.schedule.countSteps stepLimit = .ok steps? →
        (solver.solve engine callback (steadySignals stop?) stream).1 = .ok delivery) ∧
    (callback.Passes [] images → relay.calls.reverse = images ∧ delivery = ⟨images, result⟩ ∧
      match run.ending with
      | .finished => ∃ earlier last left, run.reports = earlier ++ [last] ∧
          last.finished = true ∧ callback (earlier.map (Solver.callOf graph)).reverse
            (Solver.callOf graph last) = .ok left ∧ result = .ok left ∧
          (callback.Spares → left = (Solver.callOf graph last).1.assignment)
      | .cancelled steps => result = .error (.cancelled steps)
      | .failed fault => result = .error fault
      | .unfinished => False) ∧
    (∀ passed call rest fault, images = passed ++ call :: rest → callback.Passes [] passed →
      callback passed.reverse call = .error fault →
        relay.calls.reverse = passed ++ [call] ∧ result = .error fault ∧
          delivery = ⟨passed, .error fault⟩) ∧
    (∀ call ∈ relay.calls, solver.coefficients.vars = .ok (call.1.map Prod.fst) ∧
      ∀ entry ∈ call.1, entry.2 = 0 ∨ entry.2 = 1) ∧
    relay.stop? = stop? := by
  intro run images delivery
  have hmarks : run.MarksEnd := Engine.annealWithin_marksEnd _ _ _ _ _
  obtain ⟨hstop, hattend⟩ :=
    Relay.forecast_run hcaller (fun h => absurd h Bool.false_ne_true) hrun hfuture hlimit
  change attend graph callback [] run.messages = some (relay.calls, result) at hattend
  refine ⟨?_, fun hpasses => ?_, ?_, ?_, hstop⟩
  · intro hsame text steps? hopening hsteps
    subst hsame
    simp only [Solver.solve, hgraph, hopening, hsteps]
    rfl
  · obtain ⟨hcalls, hdelivery, hends⟩ := attend_run hmarks hpasses hattend
    refine ⟨hcalls, hdelivery, ?_⟩
    cases hending : run.ending with
    | finished =>
      rw [hending] at hends
      obtain ⟨earlier, last, left, hreports, hlast, hleft, hresult⟩ := hends
      exact ⟨earlier, last, left, hreports, hlast, hleft, hresult,
        fun hspares => hspares _ _ _ hleft⟩
    | cancelled steps => rwa [hending] at hends
    | failed fault => rwa [hending] at hends
    | unfinished => rwa [hending] at hends
  · intro passed call rest fault hcalls hpasses hfault
    obtain ⟨hfailing, hdelivery⟩ := attend_failing hmarks hcalls hpasses hfault
    obtain ⟨hmade, hresult⟩ := Prod.mk.inj (Option.some.inj (hattend.symm.trans hfailing))
    exact ⟨by simp [hmade], hresult, hdelivery⟩
  · intro call hcall
    rcases mem_of_attend hattend call hcall with hnone | ⟨report, hreport, rfl⟩
    · cases hnone
    · exact callOf_of_binary hgraph
        (Engine.annealWithin_binary _ _ _ _ _ report (run.mem_messages.mp hreport))

end Engines

/-! ## Examples

A single cooling step, during which the consumer is late, and a last report that it waits for. -/

/-- A source for examples, which draws by counting. -/
def Source.counting : Source Nat Unit where
  seeded seed := seed.toNat
  coin n := (n % 2 = 1, n + 1)
  place bound n := (n % bound, n + 1)
  unit n := ((), n)
  place_lt _ n hbound := Nat.mod_lt n hbound

/-- An engine for examples, which accepts what is no increase. -/
def Engine.small : Engine ℚ Nat Unit where
  weigh := Coefficients.readExact
  accept _ _ delta := .ok (decide (delta ≤ 0))
  source := .counting
  memory := .gibibyte

def Solver.small : Solver where
  coefficients := .sample
  vars := Graph.sample.vars
  params := ⟨.float 2, .float 0.5, .float 1, .int 3⟩
  seed? := some 1

def Relay.smallSchedule : List Actor :=
  List.replicate 6 .producer ++ [.consumer, .producer, .consumer, .producer] ++
    List.replicate 3 .consumer

theorem delivery_of_run_sample :
    Solver.small.graph Engine.small = .ok .sample ∧ ∃ relay result,
      Relay.run .small .small .sample Solver.silent Relay.smallSchedule
        (.initial (some false) 0) = some relay ∧
      relay.future? = some result ∧
      let run := Engine.small.annealWithin 20 Solver.small.params (some 1) .sample
        (steadySignals (some false)) 0
      relay.calls.reverse = run.reports.map (Solver.callOf .sample) ∧
        relay.calls.length = 2 ∧ relay.stop? = some false := by
  have hgraph : Solver.small.graph Engine.small = .ok .sample := Graph.build_sample
  have hdone : ((Relay.run .small .small .sample Solver.silent Relay.smallSchedule
      (.initial (some false) 0)).bind Relay.future?).isSome = true := by decide +kernel
  obtain ⟨result, hbind⟩ := Option.isSome_iff_exists.mp hdone
  obtain ⟨relay, hrun, hfuture⟩ := Option.bind_eq_some_iff.mp hbind
  obtain ⟨-, hpassing, -, -, hstop⟩ :=
    delivery_of_run hgraph (by decide) hrun hfuture
      (show Relay.smallSchedule.length ≤ 20 by decide)
  obtain ⟨hcalls, -⟩ := hpassing (Solver.silent_passes _ _)
  refine ⟨hgraph, relay, result, hrun, hfuture, hcalls, ?_, hstop⟩
  rw [← List.length_reverse, hcalls, List.length_map]
  decide +kernel

/-! Two ways in which a delivery differs from the anneal that is behind it: the callback takes the
result away, or there is no delivery at all. -/

/-- A callback that empties each assignment. -/
def Callback.erasing : Callback := fun _ _ => .ok []

theorem Callback.erasing_passes (earlier calls : List Call) : erasing.Passes earlier calls :=
  passes_of_ok (fun _ _ => ⟨_, rfl⟩) earlier calls

/-- One sweep from a temperature that no double comes near. -/
def Params.enormous : Params :=
  ⟨.int (10 ^ 200 * 10 ^ 200), .float 0.5, .float 1, .int 1⟩

/-- The solver for examples, with other parameters. -/
def Solver.smallWith (params : Params) : Solver :=
  { small with params := params }

theorem Solver.graph_smallWith (params : Params) :
    (smallWith params).graph .small = .ok .sample :=
  Graph.build_sample

/-- With a callback that empties its assignments and never fails, an anneal that finishes has an
    empty result.  With a first temperature beyond all doubles the anneal fails, and there is no
    future to say so: the solver itself fails with the same fault. -/
theorem exists_run_differs :
    (Solver.small.graph .small = .ok .sample ∧ Actor.caller ∉ Relay.smallSchedule ∧ ∃ relay last,
      Relay.run .small .small .sample .erasing Relay.smallSchedule (.initial none 0) =
        some relay ∧
      let run := Engine.small.annealWithin 20 Solver.small.params (some 1) .sample [] 0
      run.ending = .finished ∧ run.reports.getLast? = some last ∧
        Callback.erasing.Passes [] (run.reports.map (Solver.callOf .sample)) ∧
        relay.future? = some (.ok []) ∧ (Solver.callOf .sample last).1.assignment ≠ []) ∧
    Params.enormous.validate = .ok .enormous ∧
      (Engine.small.anneal .enormous (some 1) .sample [] 0).ending = .failed .overflow ∧
      ((Solver.smallWith .enormous).solve .small Solver.silent [] 0).1 = .error .overflow := by
  have hgraph : Solver.small.graph Engine.small = .ok .sample := Graph.build_sample
  have hvars : Solver.small.coefficients.vars = .ok Graph.sample.vars := rfl
  have hnamed : ∀ report ∈ (Engine.small.annealWithin 20 Solver.small.params (some 1) .sample []
      0).reports, (Solver.callOf .sample report).1.assignment ≠ [] := by
    intro report hreport hempty
    obtain ⟨hids, -⟩ :=
      callOf_of_binary hgraph (Engine.annealWithin_binary _ _ _ _ _ report hreport)
    rw [List.map_eq_nil_iff.mp hempty, hvars] at hids
    cases hids
  refine ⟨⟨hgraph, by decide, _, _, rfl, rfl, rfl, Callback.erasing_passes _ _, rfl,
    hnamed _ (List.mem_of_getLast? rfl)⟩, rfl, ?_, ?_⟩
  · have hfails : (match (Engine.small.anneal .enormous (some 1) .sample [] 0).ending with
      | .failed .overflow => true
      | _ => false) = true := by decide +kernel
    generalize (Engine.small.anneal .enormous (some 1) .sample [] 0).ending = ending at hfails ⊢
    split at hfails
    · rfl
    · cases hfails
  · have hfails : (match ((Solver.smallWith .enormous).solve .small Solver.silent [] 0).1 with
      | .error .overflow => true
      | _ => false) = true := by decide +kernel
    generalize ((Solver.smallWith .enormous).solve .small Solver.silent [] 0).1 = solved
      at hfails ⊢
    split at hfails
    · rfl
    · cases hfails

end Annealing
