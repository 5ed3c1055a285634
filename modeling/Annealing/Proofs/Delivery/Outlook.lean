import Annealing.Proofs.Anneal.Reports
import Annealing.Proofs.Delivery.Relay

/-! # What a relay is going to deliver

At any moment of a delivery it is settled how the future ends: the messages that are queued and
those that the producer still puts are met by the consumer one after the other.  `forecast` reads
that off, and no step of the producer or the consumer changes it (`forecast_step`), so that it
holds of the end of every interleaving (`forecast_run`).

The halt signal does not disturb this.  It is set by a consumer that is on its way out and takes
no message any more, whatever the producer makes of the signal (`Settled`).
-/

namespace Annealing

variable {ω σ ρ : Type}

/-! ## Messages still to come -/

/-- The messages that an anneal puts. -/
def Run.messages (run : Run ω Temperature σ Fault) : List (Message ω) :=
  run.reports.map .report ++
    match run.ending with
    | .finished | .unfinished => []
    | .cancelled steps => [.failure (.cancelled steps)]
    | .failed fault => [.failure fault]

theorem Run.mem_messages (run : Run ω Temperature σ Fault) {report : Report ω Temperature} :
    .report report ∈ run.messages ↔ report ∈ run.reports := by
  obtain ⟨reports, ending, stream⟩ := run
  cases ending <;> simp [messages]

/-- A stop signal that is set all the time, or at no time, as the signals of an anneal. -/
def steadySignals (stop? : Option Bool) : List Signal :=
  stop?.toList.map fun set _ => set

theorem any_steadySignals (stop? : Option Bool) (steps : Nat) :
    (steadySignals stop?).any (· steps) = decide (stop? = some true) := by
  rcases stop? with _ | _ | _ <;> rfl

section Outlook

variable [OfNat ω 0] [Add ω] [Neg ω] (engine : Engine ω σ ρ) (solver : Solver) (graph : Graph ω)
  (stop? : Option Bool) (limit : Nat)

/-- The messages that a producer puts if it goes on from a walk. -/
def Walk.outlook (walk : Walk ω Temperature σ) : List (Message ω) :=
  ((solver.params.plan engine.accept).runFrom engine.source graph (steadySignals stop?) limit
    walk []).messages

/-- The messages that a producer puts if the cooling step of a walk comes next. -/
def Walk.turn (walk : Walk ω Temperature σ) : List (Message ω) :=
  match ((solver.params.plan engine.accept).coolingStep engine.source graph walk).1 with
  | .error fault => [.failure fault]
  | .ok next => .report (next.report false) :: next.outlook engine solver graph stop? limit

/-- The messages that a producer still puts, unless it is halted. -/
def Producer.outlook : Producer ω σ → List (Message ω)
  | .starting stream =>
    (engine.annealWithin limit solver.params solver.seed? graph (steadySignals stop?)
      stream).messages
  | .guarding walk => walk.outlook engine solver graph stop? limit
  | .polling walk =>
    if stop? = some true then [.failure (.cancelled walk.step)]
    else walk.turn engine solver graph stop? limit
  | .pollingHalt walk | .sweeping walk => walk.turn engine solver graph stop? limit
  | .reporting walk =>
    .report (walk.report false) :: walk.outlook engine solver graph stop? limit
  | .closing walk => [.report (walk.report true)]
  | .failing fault => [.failure fault]
  | .gone => []

/-- One turn of the loop, as far as it is seen from outside. -/
theorem Walk.outlook_succ (walk : Walk ω Temperature σ) :
    walk.outlook engine solver graph stop? (limit + 1) =
      match (solver.params.plan engine.accept).hot walk.temperature with
      | .error fault => [.failure fault]
      | .ok false => [.report (walk.report true)]
      | .ok true => (Producer.polling walk).outlook engine solver graph stop? limit := by
  simp only [Walk.outlook, Plan.runFrom_succ, any_steadySignals, decide_eq_true_eq]
  cases (solver.params.plan engine.accept).hot walk.temperature with
  | error fault => rfl
  | ok hot =>
    cases hot with
    | false => rfl
    | true =>
      simp only [Producer.outlook, Walk.turn]
      split
      · rfl
      · generalize (solver.params.plan engine.accept).coolingStep engine.source graph walk = cooled
        obtain ⟨result, after⟩ := cooled
        cases result <;> rfl

/-- In a step without halt, a producer puts the next of the messages to come, or none. -/
theorem outlook_next {producer next : Producer ω σ} {put : List (Message ω)}
    (hnext : producer.next engine solver graph stop? false = some (next, put)) :
    ∃ left, limit ≤ left ∧ producer.outlook engine solver graph stop? (limit + 1) =
      put ++ next.outlook engine solver graph stop? left := by
  cases producer with
  | starting stream =>
    refine ⟨limit + 1, Nat.le_succ limit, ?_⟩
    simp only [Producer.next] at hnext
    rw [Producer.outlook, Engine.annealWithin]
    cases hstream : engine.source.streamFor solver.seed? stream with
    | error fault => simp only [hstream] at hnext; cases hnext; rfl
    | ok stream => simp only [hstream] at hnext; cases hnext; rfl
  | guarding walk =>
    -- The only step that uses up one of the cooling steps that are left.
    refine ⟨limit, le_rfl, ?_⟩
    simp only [Producer.next] at hnext
    rw [Producer.outlook, Walk.outlook_succ]
    cases hhot : (solver.params.plan engine.accept).hot walk.temperature with
    | error fault => simp only [hhot] at hnext; cases hnext; rfl
    | ok hot =>
      cases hot with
      | false => simp only [hhot] at hnext; cases hnext; rfl
      | true => simp only [hhot] at hnext; cases hnext; rfl
  | polling walk =>
    refine ⟨limit + 1, Nat.le_succ limit, ?_⟩
    by_cases hstop : stop? = some true
    · rw [Producer.next, if_pos hstop] at hnext
      cases hnext
      rw [Producer.outlook, if_pos hstop]
      rfl
    · rw [Producer.next, if_neg hstop] at hnext
      cases hnext
      rw [Producer.outlook, if_neg hstop]
      rfl
  | sweeping walk =>
    refine ⟨limit + 1, Nat.le_succ limit, ?_⟩
    simp only [Producer.next] at hnext
    rw [Producer.outlook, Walk.turn]
    cases hcooled : ((solver.params.plan engine.accept).coolingStep engine.source graph walk).1 with
    | error fault => simp only [hcooled] at hnext; cases hnext; rfl
    | ok cooled => simp only [hcooled] at hnext; cases hnext; rfl
  | pollingHalt walk => cases hnext; exact ⟨limit + 1, Nat.le_succ limit, rfl⟩
  | reporting walk => cases hnext; exact ⟨limit + 1, Nat.le_succ limit, rfl⟩
  | closing walk => cases hnext; exact ⟨limit + 1, Nat.le_succ limit, rfl⟩
  | failing fault => cases hnext; exact ⟨limit + 1, Nat.le_succ limit, rfl⟩
  | gone => cases hnext

end Outlook

/-! ## Meeting messages -/

section Attend

variable (graph : Graph ω) (callback : Callback)

/-- What a consumer makes of messages that come one after the other: all calls, the latest first,
    and what becomes of the future.  Nothing, if it is still waiting after the last of them. -/
def attend : List Call → List (Message ω) → Option (List Call × Except Fault Assignment)
  | _, [] => none
  | calls, .failure fault :: _ => some (calls, .error fault)
  | calls, .report report :: messages =>
    let call := Solver.callOf graph report
    match callback calls call with
    | .error fault => some (call :: calls, .error fault)
    | .ok left =>
      if report.finished then some (call :: calls, .ok left)
      else attend (call :: calls) messages

namespace Relay

/-- What a consumer comes to from where it is, if the messages to come are given. -/
def conclude (relay : Relay ω σ) (messages : List (Message ω)) :
    Option (List Call × Except Fault Assignment) :=
  match relay.consumer with
  | .waiting => attend graph callback relay.calls messages
  | .calling report => attend graph callback relay.calls (.report report :: messages)
  | .leaving fault | .raising fault => some (relay.calls, .error fault)
  | .returning left => some (relay.calls, .ok left)
  | .gone result => some (relay.calls, result)

/-- A step of the consumer meets the first of the messages, or none. -/
theorem conclude_consume {relay next : Relay ω σ} (hstep : relay.consume graph callback = some next)
    (later : List (Message ω)) :
    relay.conclude graph callback (relay.queue ++ later) =
      next.conclude graph callback (next.queue ++ later) := by
  obtain ⟨producer, queue, consumer, calls, stop?, halt⟩ := relay
  cases consumer with
  | waiting =>
    cases queue with
    | nil => cases hstep
    | cons message queue => cases message <;> (cases hstep; rfl)
  | calling report =>
    cases hcall : callback calls (Solver.callOf graph report) with
    | error fault =>
      simp only [consume, hcall] at hstep
      cases hstep
      simp only [conclude, attend, hcall]
    | ok left =>
      cases hfinished : report.finished with
      | true =>
        simp only [consume, hcall, hfinished, if_true] at hstep
        cases hstep
        simp only [conclude, attend, hcall, hfinished, if_true]
      | false =>
        simp only [consume, hcall, hfinished, Bool.false_eq_true, if_false] at hstep
        cases hstep
        simp only [conclude, attend, hcall, hfinished, Bool.false_eq_true, if_false]
  | leaving fault => cases hstep; rfl
  | raising fault => cases hstep; rfl
  | returning left => cases hstep; rfl
  | gone result => cases hstep

end Relay

end Attend

/-! ## Forecasts -/

/-- A consumer that is past setting the halt signal. -/
def Consumer.HasLeft : Consumer ω → Prop
  | .raising _ | .gone _ => True
  | _ => False

namespace Relay

/-- The halt signal is set by nobody but a consumer that is on its way out. -/
def Settled (relay : Relay ω σ) : Prop :=
  relay.halt = true → relay.consumer.HasLeft

/-- A consumer that has left meets no message any more. -/
theorem conclude_of_hasLeft {graph : Graph ω} {callback : Callback} {relay : Relay ω σ}
    (hleft : relay.consumer.HasLeft) (messages others : List (Message ω)) :
    relay.conclude graph callback messages = relay.conclude graph callback others := by
  unfold conclude
  cases hconsumer : relay.consumer <;> simp_all [Consumer.HasLeft]

variable [OfNat ω 0] [Add ω] [Neg ω] {engine : Engine ω σ ρ} {solver : Solver} {graph : Graph ω}
  {callback : Callback}

/-- The calls and the future that a relay comes to, if its producer has less than a number of
    cooling steps left and the stop signal stays as it is. -/
def forecast (engine : Engine ω σ ρ) (solver : Solver) (graph : Graph ω) (callback : Callback)
    (limit : Nat) (relay : Relay ω σ) : Option (List Call × Except Fault Assignment) :=
  relay.conclude graph callback
    (relay.queue ++ relay.producer.outlook engine solver graph relay.stop? limit)

omit [OfNat ω 0] [Add ω] [Neg ω] in
/-- What a step of the consumer leaves alone, and when it sets the halt signal. -/
theorem consume_frame {relay next : Relay ω σ} (hsettled : relay.Settled)
    (hstep : relay.consume graph callback = some next) :
    next.producer = relay.producer ∧ next.stop? = relay.stop? ∧ next.Settled := by
  obtain ⟨producer, queue, consumer, calls, stop?, halt⟩ := relay
  cases consumer with
  | waiting =>
    have hhalt : halt ≠ true := fun h => hsettled h
    cases queue with
    | nil => cases hstep
    | cons message queue =>
      cases message <;> (cases hstep; exact ⟨rfl, rfl, fun h => absurd h hhalt⟩)
  | calling report =>
    have hhalt : halt ≠ true := fun h => hsettled h
    simp only [consume] at hstep
    split at hstep
    · cases hstep
      exact ⟨rfl, rfl, fun h => absurd h hhalt⟩
    · split at hstep <;> (cases hstep; exact ⟨rfl, rfl, fun h => absurd h hhalt⟩)
  | leaving fault => cases hstep; exact ⟨rfl, rfl, fun _ => trivial⟩
  | raising fault => cases hstep; exact ⟨rfl, rfl, fun _ => trivial⟩
  | returning left => cases hstep; exact ⟨rfl, rfl, fun _ => trivial⟩
  | gone result => cases hstep

/-- No step of the producer or the consumer changes what a relay is going to deliver, and none of
    them touches the caller's stop signal. -/
theorem forecast_step {relay next : Relay ω σ} {actor : Actor} (hactor : actor ≠ .caller)
    (hsettled : relay.Settled)
    (hstep : relay.step engine solver graph callback actor = some next) (limit : Nat) :
    next.Settled ∧ next.stop? = relay.stop? ∧ ∃ left, limit ≤ left ∧
      relay.forecast engine solver graph callback (limit + 1) =
        next.forecast engine solver graph callback left := by
  cases actor with
  | producer =>
    obtain ⟨⟨producer, put⟩, hnext, rfl⟩ := Option.map_eq_some_iff.mp hstep
    refine ⟨hsettled, rfl, ?_⟩
    cases hhalt : relay.halt with
    | true =>
      -- The producer may give up now, and nobody is there to notice.
      exact ⟨limit, le_rfl, conclude_of_hasLeft (hsettled hhalt) _ _⟩
    | false =>
      rw [hhalt] at hnext
      obtain ⟨left, hleft, hmessages⟩ := outlook_next engine solver graph _ limit hnext
      refine ⟨left, hleft, ?_⟩
      rw [forecast, forecast, hmessages, ← List.append_assoc]
      rfl
  | consumer =>
    obtain ⟨hproducer, hstop, hsettled⟩ := consume_frame hsettled hstep
    refine ⟨hsettled, hstop, limit + 1, Nat.le_succ limit, ?_⟩
    rw [forecast, forecast, hproducer, hstop]
    exact conclude_consume graph callback hstep _
  | caller => exact absurd rfl hactor

/-- What is forecast at the start of an interleaving is what is there when the future is done. -/
theorem forecast_run {schedule : List Actor} {relay final : Relay ω σ}
    {result : Except Fault Assignment} {limit : Nat} (hcaller : Actor.caller ∉ schedule)
    (hsettled : relay.Settled)
    (hrun : run engine solver graph callback schedule relay = some final)
    (hfuture : final.future? = some result) (hlimit : schedule.length ≤ limit) :
    final.stop? = relay.stop? ∧
      relay.forecast engine solver graph callback limit = some (final.calls, result) := by
  -- Each step uses up at most one of the cooling steps that are left.
  induction schedule generalizing relay limit with
  | nil =>
    cases hrun
    refine ⟨rfl, ?_⟩
    unfold future? at hfuture
    split at hfuture
    · rename_i _ hgone
      cases hfuture
      simp only [forecast, conclude, hgone]
    · cases hfuture
  | cons actor schedule ih =>
    obtain ⟨hactor, hcaller⟩ := List.ne_and_not_mem_of_not_mem_cons hcaller
    obtain ⟨next, hstep, hrun⟩ := Option.bind_eq_some_iff.mp hrun
    cases limit with
    | zero => exact absurd hlimit (Nat.not_succ_le_zero _)
    | succ limit =>
      have hlimit : schedule.length ≤ limit := Nat.le_of_succ_le_succ hlimit
      obtain ⟨hsettled, hstop, left, hleft, hforecast⟩ :=
        forecast_step (Ne.symm hactor) hsettled hstep limit
      obtain ⟨hstop', hdone⟩ := ih hcaller hsettled hrun (hlimit.trans hleft)
      exact ⟨hstop'.trans hstop, hforecast.trans hdone⟩

end Relay

end Annealing
