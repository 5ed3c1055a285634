import Annealing.Proofs.Anneal.Acceptance
import Annealing.Proofs.Graph.Images
import Mathlib.Analysis.Complex.Exponential
import Mathlib.MeasureTheory.Measure.Lebesgue.Basic

/-! # Balance of single trials

A trial draws a number from zero to one to decide on a flip.  How likely it is to go from one state
to another is the length of the set of numbers that make it do so.  Weighed with the exponential of
its energy against the temperature, each state passes as much on to another one as it gets back.

* `Graph.passage` — the length of that set.
* `volume_accepts` — the length of the set of numbers that accept a change of energy.
* `trialAt_balanced` — a trial in either direction between two states that differ in one bit.
-/

namespace Annealing

open MeasureTheory
open scoped ENNReal
open State (Binary)

/-! ## Lengths -/

/-- An increase of energy is accepted by the numbers below its threshold, and all numbers accept
    what is no increase. -/
theorem volume_accepts {temperature : ℝ} (htemperature : 0 < temperature) (delta : ℝ) :
    volume {r : ℝ | r ∈ Set.Ico 0 1 ∧ (delta ≤ 0 ∨ r < Real.exp (-delta / temperature))} =
      ENNReal.ofReal (min 1 (Real.exp (-delta / temperature))) := by
  have hset : {r : ℝ | r ∈ Set.Ico 0 1 ∧ (delta ≤ 0 ∨ r < Real.exp (-delta / temperature))} =
      Set.Ico 0 (min 1 (Real.exp (-delta / temperature))) := by
    ext r
    rw [Set.mem_ofPred_eq, Set.mem_Ico, Set.mem_Ico, lt_min_iff, and_assoc]
    refine and_congr_right fun _ => and_congr_right fun hone => ?_
    rw [or_iff_right_of_imp]
    intro hdelta
    have hthreshold : 1 ≤ Real.exp (-delta / temperature) :=
      Real.one_le_exp (div_nonneg (neg_nonneg.mpr hdelta) htemperature.le)
    exact hone.trans_le hthreshold
  rw [hset, Real.volume_Ico, sub_zero]

/-- The lesser of the weights of two states is passed on from either of them. -/
theorem exp_mul_min (x y temperature : ℝ) :
    Real.exp (-x / temperature) * min 1 (Real.exp (-(y - x) / temperature)) =
      min (Real.exp (-x / temperature)) (Real.exp (-y / temperature)) := by
  rw [mul_min_of_nonneg _ _ (Real.exp_nonneg _), mul_one, ← Real.exp_add]
  congr 2
  ring

/-! ## Trials -/

/-- Read the weight of a key as the real number that its double is. -/
noncomputable def Coefficients.readReal (key weight : Value) : Except Fault ℝ :=
  (readExact key weight).map Rat.cast

namespace Graph

/-- A trial flips its bit just if the change of energy is accepted. -/
theorem exists_trial_flip_iff {ω ε : Type} [OfNat ω 0] [Add ω] [Neg ω] {graph : Graph ω}
    {accept : ω → Except ε Bool} {state : State} {i : Nat} (hi : i < state.size) :
    (∃ change, graph.trial accept state i = .ok (state.flip i, change)) ↔
      accept (graph.flipDelta state i) = .ok true := by
  constructor
  · rintro ⟨change, htrial⟩
    rcases trial_eq_ok htrial with ⟨haccept, -, -⟩ | ⟨-, hsame, -⟩
    · exact haccept
    · exact absurd hsame (State.flip_ne hi)
  · intro haccept
    exact ⟨graph.flipDelta state i, by simp [trial, haccept, Except.map]⟩

/-- How much of the numbers from zero to one lets a trial at a position lead from one state to
    another. -/
noncomputable def passage (graph : Graph ℝ) (temperature : ℝ) (position : Int)
    (state next : State) : ℝ≥0∞ :=
  volume {r : ℝ | r ∈ Set.Ico 0 1 ∧ ∃ change, graph.trialAt
    (fun delta => (.ok (accepts Real.exp temperature r delta) : Except Fault Bool)) state
    position = .ok (next, change)}

section Passage

variable {graph : Graph ℝ} {state : State} {position : Int} {temperature : ℝ}

theorem passage_flip (hwf : graph.WellFormed) (hbinary : Binary graph.size state)
    (hi : placeAt graph.size position < graph.size) (htemperature : 0 < temperature) :
    let next := state.flip (placeAt graph.size position)
    graph.passage temperature position state next = ENNReal.ofReal
      (min 1 (Real.exp (-(graph.energy next - graph.energy state) / temperature))) := by
  intro next
  have hsize : placeAt graph.size position < state.size := hbinary.size_eq.symm ▸ hi
  have hdelta : graph.flipDelta state (placeAt graph.size position) =
      graph.energy next - graph.energy state :=
    (sub_eq_of_eq_add' (energy_flip hwf hbinary hi)).symm
  rw [← volume_accepts htemperature, passage]
  congr 1
  ext r
  rw [Set.mem_ofPred_eq, Set.mem_ofPred_eq, trialAt_eq_trial hbinary.size_eq,
    exists_trial_flip_iff hsize, hdelta, Except.ok.injEq, accepts_iff]

/-- A trial at a position of a binary state, at a temperature above zero.  It goes to the state with
    this bit flipped with the chance that the rule of Metropolis gives it; and the chances there and
    back are balanced by the exponentials of the energies against the temperature. -/
theorem trialAt_balanced {weigh : Value → Value → Except Fault ℝ} {coefficients : Coefficients}
    (hbuild : Graph.build weigh coefficients = .ok graph) (hbinary : Binary graph.size state)
    (hlow : -graph.size ≤ position) (hhigh : position < graph.size)
    (htemperature : 0 < temperature) :
    let next := state.flip (placeAt graph.size position)
    graph.passage temperature position state next = ENNReal.ofReal
        (min 1 (Real.exp (-(graph.energy next - graph.energy state) / temperature))) ∧
      Real.exp (-graph.energy state / temperature) *
          (graph.passage temperature position state next).toReal =
        Real.exp (-graph.energy next / temperature) *
          (graph.passage temperature position next state).toReal := by
  intro next
  have hwf := wellFormed_of_build hbuild
  have hi : placeAt graph.size position < graph.size := placeAt_lt hlow hhigh
  have hthere := passage_flip hwf hbinary hi htemperature
  have hback := passage_flip hwf (hbinary.flip hi) hi htemperature
  rw [State.flip_flip hbinary hi] at hback
  have hmin (x y : ℝ) : 0 ≤ min 1 (Real.exp (-(y - x) / temperature)) :=
    le_min zero_le_one (Real.exp_nonneg _)
  refine ⟨hthere, ?_⟩
  rw [hthere, hback, ENNReal.toReal_ofReal (hmin _ _), ENNReal.toReal_ofReal (hmin _ _),
    exp_mul_min, exp_mul_min, min_comm]

end Passage

/-- An increase of `9 / 4` at a position that counts from the end, and back again. -/
theorem trialAt_balanced_sample :
    let graph : Graph ℝ := Graph.sample.image Rat.cast
    let state : State := #[1, 0, 1, 0, 1]
    let next : State := #[1, 1, 1, 0, 1]
    Graph.build Coefficients.readReal Coefficients.sample = .ok graph ∧
      graph.passage 3 (-4) state next = ENNReal.ofReal (Real.exp (-3 / 4)) ∧
      Real.exp (-graph.energy state / 3) * (graph.passage 3 (-4) state next).toReal =
        Real.exp (-graph.energy next / 3) * (graph.passage 3 (-4) next state).toReal := by
  intro graph state next
  have hkeeps : KeepsSums (Rat.cast : ℚ → ℝ) := ⟨Rat.cast_zero, Rat.cast_add, Rat.cast_neg⟩
  have hbuild : Graph.build Coefficients.readReal Coefficients.sample = .ok graph := by
    have hentries : Coefficients.Reweighed Rat.cast Coefficients.readExact Coefficients.readReal
        Coefficients.sample Coefficients.sample :=
      List.forall₂_same.mpr fun _ _ => ⟨rfl, rfl⟩
    rw [build_image hkeeps hentries, build_sample]
    rfl
  have hbinary : Binary graph.size state := by
    refine ⟨rfl, fun i => ?_⟩
    match i with
    | 0 | 2 | 4 => exact .inr rfl
    | 1 | 3 => exact .inl rfl
    | _ + 5 => exact .inl rfl
  have hflip : state.flip (placeAt graph.size (-4)) = next := by decide +kernel
  have hrise : graph.energy next - graph.energy state = 9 / 4 := by
    have hexact : Graph.sample.energy next - Graph.sample.energy state = 9 / 4 := by decide +kernel
    rw [energy_image hkeeps, energy_image hkeeps, ← Rat.cast_sub, hexact]
    norm_num
  obtain ⟨hpassage, hbalance⟩ := trialAt_balanced hbuild hbinary
    (show -(graph.size : Int) ≤ -4 by decide) (by decide) (show (0 : ℝ) < 3 by norm_num)
  rw [hflip] at hpassage hbalance
  refine ⟨hbuild, ?_, hbalance⟩
  have hthreshold : -(9 / 4) / 3 = (-3 / 4 : ℝ) := by norm_num
  have hle : Real.exp (-3 / 4) ≤ 1 := Real.exp_le_one_iff.mpr (by norm_num)
  rw [hpassage, hrise, hthreshold, min_eq_right hle]

end Graph

end Annealing
