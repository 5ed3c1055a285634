import Annealing.Params.Cooling
import Annealing.Proofs.Anneal.Sweeps
import Mathlib.Data.Rat.Defs

/-! # Accepting a flip

A change of energy is accepted if it is no increase; an increase is accepted by chance, the less
likely the greater it is against the temperature.  `accepts` is this rule over any numbers, and
over doubles it is the rule that anneals are made with (`metropolis_eq_accepts`).

* `localField_eq_sub` — the local field of a node is what the node brings to the energy.
* `trialAt_eq_trial` — a position that may count from the end stands for a node.
* `trialAt_accepts` — what one trial does to the state, what it reports, and when it flips.
-/

namespace Annealing

open State (Binary)

variable {ω ρ ε : Type}

/-! ## The rule -/

section Rule

variable [OfNat ω 0] [Neg ω] [LE ω] [DecidableLE ω] [Div ω] [LT ρ] [DecidableLT ρ]

/-- Is a change of energy accepted at a temperature?  It is if it is no increase, or if the drawn
    number is less than `exp (-delta / temperature)`. -/
def accepts (exp : ω → ρ) (temperature : ω) (r : ρ) (delta : ω) : Bool :=
  delta ≤ 0 || r < exp (-delta / temperature)

theorem accepts_iff {exp : ω → ρ} {temperature : ω} {r : ρ} {delta : ω} :
    accepts exp temperature r delta = true ↔
      delta ≤ 0 ∨ r < exp (-delta / temperature) := by
  simp [accepts]

end Rule

/-- Over doubles the rule is the one of the program, at any temperature that is a double. -/
theorem metropolis_eq_accepts (exp : Float → Float) {temperature : Value} {t : Float}
    (htemperature : temperature.toFloat? = .ok t) (r delta : Float) :
    metropolis exp temperature (.float r) delta = .ok (accepts exp t r delta) := by
  have hsequence : temperature.isSequence = false := by
    cases temperature with
    | none | bool _ | int _ | float _ | text _ | dict _ => rfl
    | list _ | tuple _ => cases htemperature
  unfold metropolis accepts
  split
  · rename_i hle
    simp [hle]
  · rename_i hle
    simp only [thresholds, hsequence, htemperature, hle, decide_false, Bool.false_or]
    rfl

/-! ## Writing one bit -/

namespace State

variable {state : State} {i j : Nat}

theorem bit_set_self (hi : i < state.size) (b : UInt8) : State.bit (state.set! i b) i = b := by
  simp [bit, hi]

theorem bit_set_of_ne (hne : j ≠ i) (b : UInt8) : State.bit (state.set! i b) j = state.bit j := by
  simp [bit, Array.getD_eq_getD_getElem?, Ne.symm hne]

/-- A node that is not set is set by a flip. -/
theorem flip_set_zero (hi : i < state.size) : State.flip (state.set! i 0) i = state.set! i 1 := by
  apply ext_bit
  · simp
  · intro j _
    by_cases hji : j = i
    · subst hji
      rw [bit_flip_self (by simpa using hi), bit_set_self hi, bit_set_self hi]
      rfl
    · rw [bit_flip_of_ne hji, bit_set_of_ne hji, bit_set_of_ne hji]

theorem flip_ne (hi : i < state.size) : state.flip i ≠ state := by
  intro hsame
  have hbit := bit_flip_self hi
  rw [hsame] at hbit
  by_cases hzero : state.bit i = 0
  · simp [hzero] at hbit
  · rw [if_neg hzero] at hbit
    exact hzero hbit

end State

/-! ## Local fields -/

namespace Graph

section Fields

variable [AddCommGroup ω] {graph : Graph ω} {state : State} {i : Nat}

/-- A node is no neighbour of itself, so its own bit makes no difference to its local field. -/
theorem localField_set (hwf : graph.WellFormed) (b : UInt8) :
    graph.localField (state.set! i b) i = graph.localField state i := by
  unfold localField
  apply List.foldl_ext
  intro field neighbour hmem
  rw [State.bit_set_of_ne (hwf.target_ne i neighbour hmem)]

/-- The local field of a node is the difference that the node makes to the energy. -/
theorem localField_eq_sub (hwf : graph.WellFormed) (hbinary : Binary graph.size state)
    (hi : i < graph.size) :
    graph.localField state i = graph.energy (state.set! i 1) - graph.energy (state.set! i 0) := by
  have hsize : i < state.size := hbinary.size_eq.symm ▸ hi
  have hflip := energy_flip hwf (hbinary.set (.inl rfl) : Binary graph.size (state.set! i 0)) hi
  rw [State.flip_set_zero hsize, flipDelta, State.bit_set_self hsize, deltaOf, if_pos rfl,
    localField_set hwf] at hflip
  rw [hflip, add_sub_cancel_left]

end Fields

/-! ## One trial -/

theorem placeAt_lt {n : Nat} {position : Int} (hlow : -n ≤ position) (hhigh : position < n) :
    placeAt n position < n := by
  unfold placeAt
  split <;> omega

/-- In a state of the graph, the trial at a position is that at its node. -/
theorem trialAt_eq_trial [OfNat ω 0] [Add ω] [Neg ω] {graph : Graph ω} {state : State}
    (hsize : state.size = graph.size) (accept : ω → Except ε Bool) (position : Int) :
    graph.trialAt accept state position =
      graph.trial accept state (placeAt graph.size position) := by
  simp only [trialAt, trial, flipDelta, hsize]

section Trials

variable [AddCommGroup ω] [LE ω] [DecidableLE ω] [Div ω] [LT ρ] [DecidableLT ρ]

/-- A trial by the rule of acceptance, at any position of a binary state.  The local field is the
    difference of the energies with the bit set and not set, whatever the bit is.  The trial flips
    just this bit if the change of energy that the flip makes is accepted, and else does nothing;
    in both cases it reports the change of the energy.  A sweep makes the same trial. -/
theorem trialAt_accepts {weigh : Value → Value → Except Fault ω} {coefficients : Coefficients}
    {graph : Graph ω} (hbuild : Graph.build weigh coefficients = .ok graph) {state : State}
    (hbinary : Binary graph.size state) {position : Int} (hlow : -graph.size ≤ position)
    (hhigh : position < graph.size) (exp : ω → ρ) (temperature : ω) (r : ρ) :
    let i := placeAt graph.size position
    let rule : ω → Except ε Bool := fun delta => .ok (accepts exp temperature r delta)
    let delta := graph.energy (state.flip i) - graph.energy state
    graph.localField state i = graph.energy (state.set! i 1) - graph.energy (state.set! i 0) ∧
      (∀ b, graph.localField (state.set! i b) i = graph.localField state i) ∧
      (state.flip i).size = state.size ∧
      (state.bit i = 0 ∧ (state.flip i).bit i = 1 ∨ state.bit i = 1 ∧ (state.flip i).bit i = 0) ∧
      (∀ j ≠ i, (state.flip i).bit j = state.bit j) ∧
      ∃ after change, graph.trialAt rule state position = .ok (after, change) ∧
        graph.trial rule state i = .ok (after, change) ∧
        change = graph.energy after - graph.energy state ∧
        (after = state ∧ change = 0 ∨ after = state.flip i) ∧
        (after = state.flip i ↔ delta ≤ 0 ∨ r < exp (-delta / temperature)) := by
  intro i rule delta
  have hwf := wellFormed_of_build hbuild
  have hi : i < graph.size := placeAt_lt hlow hhigh
  have hsize : i < state.size := hbinary.size_eq.symm ▸ hi
  have hdelta : graph.flipDelta state i = delta :=
    (sub_eq_of_eq_add' (energy_flip hwf hbinary hi)).symm
  have hbits : state.bit i = 0 ∧ (state.flip i).bit i = 1 ∨
      state.bit i = 1 ∧ (state.flip i).bit i = 0 := by
    rw [State.bit_flip_self hsize]
    cases hbinary.zero_or_one i with
    | inl hzero => simp [hzero]
    | inr hone => simp [hone]
  refine ⟨localField_eq_sub hwf hbinary hi, fun b => localField_set hwf b,
    State.size_flip state i, hbits, fun j hne => State.bit_flip_of_ne hne, ?_⟩
  rw [trialAt_eq_trial hbinary.size_eq]
  cases haccepts : accepts exp temperature r delta with
  | true =>
    have htrial : graph.trial rule state i = .ok (state.flip i, delta) := by
      simp [trial, rule, hdelta, haccepts, Except.map]
    exact ⟨_, _, htrial, htrial, rfl, .inr rfl, iff_of_true rfl (accepts_iff.mp haccepts)⟩
  | false =>
    have htrial : graph.trial rule state i = .ok (state, 0) := by
      simp [trial, rule, hdelta, haccepts, Except.map]
    have hrejects : ¬ (delta ≤ 0 ∨ r < exp (-delta / temperature)) := fun h => by
      simp [accepts_iff.mpr h] at haccepts
    exact ⟨_, _, htrial, htrial, (sub_self _).symm, .inl ⟨rfl, rfl⟩,
      iff_of_false (State.flip_ne hsize).symm hrejects⟩

end Trials

/-- An increase of `9 / 4` that is accepted by chance, at a position that counts from the end. -/
theorem trialAt_accepts_sample :
    Graph.build Coefficients.readExact Coefficients.sample = .ok Graph.sample ∧
      Binary Graph.sample.size #[1, 0, 1, 0, 1] ∧
      Graph.sample.trialAt
          (fun delta => (.ok (accepts (fun x : ℚ => 1 + x / 2) 3 (1 / 2) delta) : Except Fault Bool))
          #[1, 0, 1, 0, 1] (-4) =
        .ok (State.flip #[1, 0, 1, 0, 1] 1, 9 / 4) := by
  have hbinary : Binary Graph.sample.size #[1, 0, 1, 0, 1] := by
    refine ⟨rfl, fun i => ?_⟩
    match i with
    | 0 | 2 | 4 => exact .inr rfl
    | 1 | 3 => exact .inl rfl
    | _ + 5 => exact .inl rfl
  obtain ⟨-, -, -, -, -, after, change, htrial, -, hchange, -, hflips⟩ :=
    trialAt_accepts (ε := Fault) Graph.build_sample hbinary
      (show -(Graph.sample.size : Int) ≤ -4 by decide) (by decide) (fun x : ℚ => 1 + x / 2) 3
      (1 / 2)
  have hafter : after = State.flip #[1, 0, 1, 0, 1] 1 :=
    hflips.mpr (by decide +kernel)
  have hrise : Graph.sample.energy (State.flip #[1, 0, 1, 0, 1] 1) -
      Graph.sample.energy #[1, 0, 1, 0, 1] = 9 / 4 := by decide +kernel
  refine ⟨Graph.build_sample, hbinary, ?_⟩
  rw [htrial, hchange, hafter, hrise]

end Graph

end Annealing
