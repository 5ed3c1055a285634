import Annealing.Proofs.Delivery.Order

/-! # Nobody is left behind

Neither of the two processes of a delivery depends on the other one in vain, in whatever order they
take their steps, wherever an anneal or a callback fails, and whenever the caller sets its stop
signal.

* A producer that is gone has put a message that closes the delivery, so the consumer does not wait
  for another one (`Sound.closed`).
* A consumer that raises a fault has set the halt signal (`Sound.halted`), and a halted producer
  makes no sweep but the one that it was about to make (`sweeps_le_of_halt`).
* `not_stuck_of_run` — both, for every moment of every interleaving.
-/

namespace Annealing

variable {ω σ ρ : Type}

/-! ## What closes a delivery -/

/-- The consumer takes no message after this one. -/
def Message.Closes : Message ω → Prop
  | .report last => last.finished = true
  | .failure _ => True

/-- The consumer takes no message any more. -/
def Consumer.Served : Consumer ω → Prop
  | .waiting => False
  | .calling report => report.finished = true
  | .leaving _ | .raising _ | .returning _ | .gone _ => True

/-- The consumer has left with a fault, or is doing so and past setting the halt signal. -/
def Consumer.HasRaised : Consumer ω → Prop
  | .raising _ | .gone (.error _) => True
  | .waiting | .calling _ | .leaving _ | .returning _ | .gone (.ok _) => False

instance (consumer : Consumer ω) : Decidable consumer.HasRaised :=
  match consumer with
  | .raising _ | .gone (.error _) => isTrue trivial
  | .waiting | .calling _ | .leaving _ | .returning _ | .gone (.ok _) => isFalse id

def Consumer.isWaiting : Consumer ω → Bool
  | .waiting => true
  | .calling _ | .leaving _ | .raising _ | .returning _ | .gone _ => false

theorem Consumer.eq_waiting {consumer : Consumer ω} (hwaits : consumer.isWaiting = true) :
    consumer = .waiting := by
  cases consumer <;> first | rfl | cases hwaits

/-- The sweeps that a producer makes before it looks at a signal again. -/
def Producer.granted : Producer ω σ → Nat
  | .sweeping _ => 1
  | _ => 0

namespace Relay

/-- What holds at every moment of a delivery. -/
structure Sound (relay : Relay ω σ) : Prop where
  -- A producer that is gone has said so, and the consumer has heard it or will.
  closed : relay.producer = .gone →
    (∃ message ∈ relay.queue, message.Closes) ∨ relay.consumer.Served
  -- A consumer that leaves with a fault lets the producer go.
  halted : relay.consumer.HasRaised → relay.halt = true

theorem sound_initial (stop? : Option Bool) (stream : σ) :
    (initial stop? stream : Relay ω σ).Sound where
  closed hgone := by cases hgone
  halted hraised := hraised.elim

/-! ## Steps of the consumer and of the caller -/

/-- The consumer takes a message that closes the delivery, or leaves it where it is. -/
theorem sound_consume {graph : Graph ω} {callback : Callback} {relay next : Relay ω σ}
    (hsound : relay.Sound) (hstep : relay.consume graph callback = some next) : next.Sound := by
  obtain ⟨producer, queue, consumer, calls, stop?, halt⟩ := relay
  obtain ⟨hclosed, hhalted⟩ := hsound
  cases consumer with
  | waiting =>
    have hqueued : producer = .gone → ∃ message ∈ queue, message.Closes :=
      fun hgone => (hclosed hgone).resolve_right id
    cases queue with
    | nil => cases hstep
    | cons message queue =>
      cases message with
      | failure fault =>
        cases hstep
        exact ⟨fun _ => .inr trivial, False.elim⟩
      | report report =>
        cases hstep
        refine ⟨fun hgone => ?_, False.elim⟩
        obtain ⟨message, hmem, hcloses⟩ := hqueued hgone
        rcases List.mem_cons.mp hmem with rfl | hmem
        · exact .inr hcloses
        · exact .inl ⟨message, hmem, hcloses⟩
  | calling report =>
    simp only [consume] at hstep
    split at hstep
    · cases hstep
      exact ⟨fun _ => .inr trivial, False.elim⟩
    · split at hstep
      · cases hstep
        exact ⟨fun _ => .inr trivial, False.elim⟩
      · rename_i hunfinished
        cases hstep
        exact ⟨fun hgone => .inl ((hclosed hgone).resolve_right hunfinished), False.elim⟩
  | leaving fault => cases hstep; exact ⟨fun _ => .inr trivial, fun _ => rfl⟩
  | raising fault => cases hstep; exact ⟨fun _ => .inr trivial, fun _ => hhalted trivial⟩
  | returning left => cases hstep; exact ⟨fun _ => .inr trivial, False.elim⟩
  | gone result => cases hstep

/-- The consumer does not take the halt signal back, and leaves the producer alone. -/
theorem consume_of_halt {graph : Graph ω} {callback : Callback} {relay next : Relay ω σ}
    (hhalt : relay.halt = true) (hstep : relay.consume graph callback = some next) :
    next.producer = relay.producer ∧ next.halt = true := by
  obtain ⟨producer, queue, consumer, calls, stop?, halt⟩ := relay
  cases consumer with
  | waiting =>
    cases queue with
    | nil => cases hstep
    | cons message queue => cases message <;> (cases hstep; exact ⟨rfl, hhalt⟩)
  | calling report =>
    simp only [consume] at hstep
    split at hstep
    · cases hstep; exact ⟨rfl, hhalt⟩
    · split at hstep <;> (cases hstep; exact ⟨rfl, hhalt⟩)
  | leaving fault => cases hstep; exact ⟨rfl, rfl⟩
  | raising fault => cases hstep; exact ⟨rfl, hhalt⟩
  | returning left => cases hstep; exact ⟨rfl, hhalt⟩
  | gone result => cases hstep

end Relay

/-! ## Steps of the producer -/

section Engines

variable [OfNat ω 0] [Add ω] [Neg ω] {engine : Engine ω σ ρ} {solver : Solver} {graph : Graph ω}
  {callback : Callback}

namespace Producer

variable {stop? : Option Bool} {halt : Bool} {producer next : Producer ω σ}
  {put : List (Message ω)}

variable (engine solver graph stop? halt) in
/-- A producer that is not gone can take a step, whatever the signals are. -/
theorem exists_next (hthere : producer ≠ .gone) :
    ∃ after, producer.next engine solver graph stop? halt = some after := by
  cases producer with
  | starting stream => simp only [Producer.next]; split <;> exact ⟨_, rfl⟩
  | guarding walk => simp only [Producer.next]; split <;> exact ⟨_, rfl⟩
  | polling walk => simp only [Producer.next]; split <;> exact ⟨_, rfl⟩
  | pollingHalt walk => simp only [Producer.next]; split <;> exact ⟨_, rfl⟩
  | sweeping walk => simp only [Producer.next]; split <;> exact ⟨_, rfl⟩
  | reporting walk | closing walk | failing fault => exact ⟨_, rfl⟩
  | gone => exact absurd rfl hthere

/-- The last thing that a producer does is to put a message that closes the delivery. -/
theorem closes_of_next_gone
    (hnext : producer.next engine solver graph stop? halt = some (.gone, put)) :
    ∃ message ∈ put, message.Closes := by
  cases producer with
  | closing walk => cases hnext; exact ⟨_, List.mem_singleton.mpr rfl, rfl⟩
  | failing fault => cases hnext; exact ⟨_, List.mem_singleton.mpr rfl, trivial⟩
  | starting stream => simp only [Producer.next] at hnext; split at hnext <;> cases hnext
  | guarding walk => simp only [Producer.next] at hnext; split at hnext <;> cases hnext
  | polling walk => simp only [Producer.next] at hnext; split at hnext <;> cases hnext
  | pollingHalt walk => simp only [Producer.next] at hnext; split at hnext <;> cases hnext
  | sweeping walk => simp only [Producer.next] at hnext; split at hnext <;> cases hnext
  | reporting walk => cases hnext
  | gone => cases hnext

/-- A halted producer is granted no further sweep. -/
theorem granted_next (hnext : producer.next engine solver graph stop? true = some (next, put)) :
    next.granted = 0 := by
  cases producer with
  | pollingHalt walk => cases hnext; rfl
  | starting stream => simp only [Producer.next] at hnext; split at hnext <;> (cases hnext; rfl)
  | guarding walk => simp only [Producer.next] at hnext; split at hnext <;> (cases hnext; rfl)
  | polling walk => simp only [Producer.next] at hnext; split at hnext <;> (cases hnext; rfl)
  | sweeping walk => simp only [Producer.next] at hnext; split at hnext <;> (cases hnext; rfl)
  | reporting walk | closing walk | failing fault => cases hnext; rfl
  | gone => cases hnext

end Producer

namespace Relay

/-! ## Every moment -/

theorem sound_step {relay next : Relay ω σ} {actor : Actor} (hsound : relay.Sound)
    (hstep : relay.step engine solver graph callback actor = some next) : next.Sound := by
  cases actor with
  | producer =>
    obtain ⟨⟨producer, put⟩, hnext, rfl⟩ := Option.map_eq_some_iff.mp hstep
    refine ⟨fun hgone => ?_, hsound.halted⟩
    obtain rfl : producer = .gone := hgone
    obtain ⟨message, hmem, hcloses⟩ := Producer.closes_of_next_gone hnext
    exact .inl ⟨message, List.mem_append_right _ hmem, hcloses⟩
  | consumer => exact sound_consume hsound hstep
  | caller =>
    obtain ⟨stop, -, rfl⟩ := Option.map_eq_some_iff.mp hstep
    exact ⟨hsound.closed, hsound.halted⟩

theorem sound_run {schedule : List Actor} {relay final : Relay ω σ} (hsound : relay.Sound)
    (hrun : run engine solver graph callback schedule relay = some final) : final.Sound := by
  induction schedule generalizing relay with
  | nil =>
    cases hrun
    exact hsound
  | cons actor schedule ih =>
    obtain ⟨next, hstep, hrun⟩ := Option.bind_eq_some_iff.mp hrun
    exact ih (sound_step hsound hstep) hrun

/-! ## Sweeps after the halt -/

variable (engine solver graph callback)

/-- How many sweeps are made in the steps of a schedule, as far as these can be taken. -/
def sweeps : List Actor → Relay ω σ → Nat
  | [], _ => 0
  | actor :: schedule, relay =>
    match relay.step engine solver graph callback actor with
    | none => 0
    | some next =>
      (if actor = .producer then relay.producer.granted else 0) + sweeps schedule next

variable {engine solver graph callback}

/-- In a halted relay, a sweep that is made is one that was granted before. -/
theorem granted_step {relay next : Relay ω σ} {actor : Actor} (hhalt : relay.halt = true)
    (hstep : relay.step engine solver graph callback actor = some next) :
    next.halt = true ∧
      (if actor = .producer then relay.producer.granted else 0) + next.producer.granted ≤
        relay.producer.granted := by
  cases actor with
  | producer =>
    obtain ⟨⟨producer, put⟩, hnext, rfl⟩ := Option.map_eq_some_iff.mp hstep
    rw [hhalt] at hnext
    refine ⟨hhalt, ?_⟩
    rw [if_pos rfl, Producer.granted_next hnext, Nat.add_zero]
  | consumer =>
    obtain ⟨hproducer, hhalt⟩ := consume_of_halt hhalt hstep
    refine ⟨hhalt, ?_⟩
    rw [if_neg (by decide), hproducer, Nat.zero_add]
  | caller =>
    obtain ⟨stop, -, rfl⟩ := Option.map_eq_some_iff.mp hstep
    exact ⟨hhalt, by rw [if_neg (by decide), Nat.zero_add]⟩

theorem sweeps_le_of_halt {relay : Relay ω σ} (hhalt : relay.halt = true) (schedule : List Actor) :
    sweeps engine solver graph callback schedule relay ≤ relay.producer.granted := by
  induction schedule generalizing relay with
  | nil => exact Nat.zero_le _
  | cons actor schedule ih =>
    rw [sweeps]
    split
    · exact Nat.zero_le _
    · rename_i next hstep
      obtain ⟨hhalt, hgranted⟩ := granted_step hhalt hstep
      exact (Nat.add_le_add_left (ih hhalt) _).trans hgranted

/-- At every moment of every interleaving: a consumer that waits at an empty queue has a producer
    that is not gone, and can take a step.  Once the consumer has left with a fault, the halt signal
    is set, and whatever steps are taken from there on, no sweep is made but the one that the
    producer was about to make when it had looked at both signals. -/
theorem not_stuck_of_run {schedule : List Actor} {stop? : Option Bool} {stream : σ}
    {relay : Relay ω σ}
    (hrun : run engine solver graph callback schedule (.initial stop? stream) = some relay) :
    (relay.consumer = .waiting → relay.queue = [] →
      relay.producer ≠ .gone ∧
        ∃ next, relay.step engine solver graph callback .producer = some next) ∧
    (relay.consumer.HasRaised →
      relay.halt = true ∧
        ∀ later, sweeps engine solver graph callback later relay ≤ relay.producer.granted) := by
  have hsound : relay.Sound := sound_run (sound_initial stop? stream) hrun
  constructor
  · intro hwaiting hempty
    have hthere : relay.producer ≠ .gone := by
      intro hgone
      rcases hsound.closed hgone with ⟨message, hmem, -⟩ | hserved
      · rw [hempty] at hmem
        cases hmem
      · rw [hwaiting] at hserved
        exact hserved
    obtain ⟨after, hnext⟩ :=
      Producer.exists_next engine solver graph relay.stop? relay.halt hthere
    exact ⟨hthere, _, Option.map_eq_some_iff.mpr ⟨after, hnext, rfl⟩⟩
  · intro hraised
    have hhalt := hsound.halted hraised
    exact ⟨hhalt, sweeps_le_of_halt hhalt⟩

end Relay

end Engines

/-! ## An example

A callback that passes one call and fails in the next one, while the producer is about to sweep. -/

/-- A solver for examples, with some more cooling steps. -/
def Solver.slow : Solver :=
  { Solver.small with params := ⟨.float 2, .float 0.5, .float 0.125, .int 3⟩ }

/-- One turn of the producer, and the consumer deals with its report. -/
def Relay.firstTurn : List Actor :=
  List.replicate 6 .producer ++ List.replicate 2 .consumer

/-- Another turn, and the look at the signals after it; then the consumer gets the report. -/
def Relay.secondTurn : List Actor :=
  Relay.firstTurn ++ List.replicate 8 .producer ++ List.replicate 4 .consumer

theorem Relay.not_stuck_of_run_sample :
    (∃ relay, Relay.run .small .slow .sample (Callback.failingAfter (some 1)) Relay.firstTurn
        (.initial (some false) 0) = some relay ∧
      relay.consumer = .waiting ∧ relay.queue = [] ∧ relay.producer ≠ .gone) ∧
    ∃ relay, Relay.run .small .slow .sample (Callback.failingAfter (some 1)) Relay.secondTurn
        (.initial (some false) 0) = some relay ∧
      relay.consumer.HasRaised ∧ relay.halt = true ∧
        ∀ later, Relay.sweeps .small .slow .sample (Callback.failingAfter (some 1)) later relay ≤
          1 := by
  have hfirst : ((Relay.run .small .slow .sample (Callback.failingAfter (some 1)) Relay.firstTurn
      (.initial (some false) 0)).any fun relay =>
        relay.queue.isEmpty && relay.consumer.isWaiting) = true := by decide +kernel
  have hsecond : ((Relay.run .small .slow .sample (Callback.failingAfter (some 1))
      Relay.secondTurn (.initial (some false) 0)).any fun relay =>
        relay.producer.granted == 1 && relay.consumer.HasRaised) = true := by decide +kernel
  obtain ⟨first, hrun, hwaits⟩ := (Option.any_eq_true _ _).mp hfirst
  obtain ⟨second, hrun', hleft⟩ := (Option.any_eq_true _ _).mp hsecond
  constructor
  · obtain ⟨hempty, hwaiting⟩ := (Bool.and_eq_true _ _).mp hwaits
    have hconsumer : first.consumer = .waiting := Consumer.eq_waiting hwaiting
    have hqueue : first.queue = [] := List.isEmpty_iff.mp hempty
    exact ⟨first, hrun, hconsumer, hqueue, ((not_stuck_of_run hrun).1 hconsumer hqueue).1⟩
  · obtain ⟨hgranted, hgone⟩ := (Bool.and_eq_true _ _).mp hleft
    have hraised : second.consumer.HasRaised := of_decide_eq_true hgone
    obtain ⟨hhalt, hsweeps⟩ := (not_stuck_of_run hrun').2 hraised
    rw [eq_of_beq hgranted] at hsweeps
    exact ⟨second, hrun', hraised, hhalt, hsweeps⟩

end Annealing
