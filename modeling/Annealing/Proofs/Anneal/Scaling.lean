import Annealing.Proofs.Anneal.Acceptance
import Annealing.Proofs.Anneal.Images
import Annealing.Proofs.Problem.Exact
import Annealing.Random.Twister
import Annealing.Solver
import Mathlib.Algebra.Order.Field.Basic
import Mathlib.Tactic.Linarith

/-! # Anneals in other units

Weights and temperatures have one unit.  An anneal that is given both in another unit goes through
the same states and tells their energies in that unit.

`Plan.ofNumbers` is the plan of an anneal over any numbers.

* `annealWithin_eq_image` — over doubles it is the plan of the program.
* `images_ofNumbers` — multiplying by a constant sends the plan to the one in the other unit.
* `anneal_scaled` — the whole anneal is the same but for the unit.
-/

namespace Annealing

variable {κ ρ σ ε : Type}

/-- A double as a temperature. -/
def Temperature.ofDouble (x : Float) : Temperature :=
  .ofValue (.float x)

/-! ## Plans of numbers -/

namespace Plan

section Numbers

variable [OfNat κ 0] [Neg κ] [Mul κ] [Div κ] [LE κ] [DecidableLE κ] [LT κ] [DecidableLT κ]
  [LT ρ] [DecidableLT ρ]

/-- Cool from one number down to another one by a constant factor, with as many trials at each
    temperature. -/
def ofNumbers (exp : κ → ρ) (initial factor final : κ) (trials : Nat) : Plan κ κ ρ ε where
  initial := initial
  hot temperature := .ok (final < temperature)
  cool temperature := .ok (temperature * factor)
  trials := .ok trials
  accept temperature r delta := .ok (accepts exp temperature r delta)
  announce _ := .ok ()

end Numbers

/-- The plan of parameters that are doubles does with temperatures what that of numbers does. -/
theorem images_ofDouble (exp : Float → Float) (source : Source σ Float) (memory : Storage)
    (initial factor final : Float) (sweeps : Int) :
    (ofNumbers exp initial factor final sweeps.toNat).Images .ofDouble id
      (Params.plan (Engine.doubles exp source memory).accept
        ⟨.float initial, .float factor, .float final, .int sweeps⟩) where
  initial_eq := rfl
  hot_eq _ := Temperature.exceeds?_eq _ _
  cool_eq _ := rfl
  trials_eq := rfl
  accept_eq _ r delta := metropolis_eq_accepts exp rfl r delta
  announce_eq _ := rfl

/-- An anneal of the program with parameters that are doubles is that of the plan of numbers. -/
theorem annealWithin_eq_image (exp : Float → Float) (source : Source σ Float) (memory : Storage)
    (initial factor final : Float) (sweeps : Int) (graph : Graph Float) (stops : List Signal)
    (limit : Nat) (stream : σ) :
    (Engine.doubles exp source memory).annealWithin limit
        ⟨.float initial, .float factor, .float final, .int sweeps⟩ none graph stops stream =
      ((ofNumbers exp initial factor final sweeps.toNat).anneal source graph stops limit
        stream).image .ofDouble id := by
  have hkeeps : KeepsSums (id : Float → Float) :=
    ⟨rfl, fun _ _ => rfl, fun _ => rfl⟩
  have himage := anneal_image (images_ofDouble exp source memory initial factor final sweeps) hkeeps
    source graph stops limit stream
  rwa [Graph.image_id] at himage

/-! ## Other units -/

section Units

variable [LT ρ] [DecidableLT ρ] {c : ℚ}

theorem accepts_scaled (hc : 0 < c) (exp : ℚ → ρ) (temperature : ℚ) (r : ρ) (delta : ℚ) :
    accepts exp (c * temperature) r (c * delta) = accepts exp temperature r delta := by
  have hsign : c * delta ≤ 0 ↔ delta ≤ 0 := by
    rw [← not_lt, ← not_lt, mul_pos_iff_of_pos_left hc]
  have hquotient : -(c * delta) / (c * temperature) = -delta / temperature := by
    rw [← mul_neg, mul_div_mul_left _ _ hc.ne']
  rw [Bool.eq_iff_iff, accepts_iff, accepts_iff, hsign, hquotient]

theorem images_ofNumbers (hc : 0 < c) (exp : ℚ → ρ) (initial factor final : ℚ) (trials : Nat) :
    (ofNumbers (ε := ε) exp initial factor final trials).Images (c * ·) (c * ·)
      (ofNumbers exp (c * initial) factor (c * final) trials) where
  initial_eq := rfl
  hot_eq temperature := by
    simp only [ofNumbers, mul_lt_mul_iff_right₀ hc]
  cool_eq temperature := congrArg Except.ok (mul_assoc c temperature factor)
  trials_eq := rfl
  accept_eq temperature r delta := congrArg Except.ok (accepts_scaled hc exp temperature r delta)
  announce_eq _ := rfl

/-- Multiply all weights of a map by a positive constant, and the first and the last temperature
    as well.  The anneal makes the same draws, goes through the same states and ends in the same
    way; its temperatures and its energies are multiplied by the constant. -/
theorem anneal_scaled (hc : 0 < c) {weigh weigh' : Value → Value → Except Fault ℚ}
    {coefficients coefficients' : Coefficients} {graph : Graph ℚ}
    (hbuild : Graph.build weigh coefficients = .ok graph)
    (hscaled : Coefficients.Reweighed (c * ·) weigh weigh' coefficients coefficients') :
    ∃ graph', Graph.build weigh' coefficients' = .ok graph' ∧
      ∀ (exp : ℚ → ρ) (initial factor final : ℚ) (trials : Nat) (source : Source σ ρ)
        (stops : List Signal) (limit : Nat) (stream : σ),
        let run : Run ℚ ℚ σ ε :=
          (ofNumbers exp initial factor final trials).anneal source graph stops limit stream
        let run' : Run ℚ ℚ σ ε :=
          (ofNumbers exp (c * initial) factor (c * final) trials).anneal source graph' stops limit
            stream
        run'.reports = run.reports.map (fun report =>
            ⟨report.state, c * report.temperature, c * report.energy, report.step,
              report.finished⟩) ∧
          run'.ending = run.ending ∧ run'.stream = run.stream := by
  have hkeeps : KeepsSums (c * · : ℚ → ℚ) := ⟨mul_zero c, mul_add c, mul_neg c⟩
  refine ⟨graph.image (c * ·), ?_, ?_⟩
  · rw [Graph.build_image hkeeps hscaled, hbuild]
    rfl
  · intro exp initial factor final trials source stops limit stream run run'
    have himage : run' = run.image (c * ·) (c * ·) :=
      anneal_image (images_ofNumbers hc exp initial factor final trials) hkeeps source graph stops
        limit stream
    rw [himage]
    exact ⟨rfl, rfl, rfl⟩

end Units

end Plan

/-! ## An example -/

/-- The sample map with every weight halved. -/
def Coefficients.halved : Coefficients :=
  [(.text " +1,00", .float 0.25), (.tuple [.int 0, .text "1"], .float (-0.125)),
    (.text "5,5", .int 2), (.int 0, .float 0.75), (.text "-3,5", .float 0.5),
    (.tuple [.int 5, .int (-3)], .float (-0.5)), (.tuple [.int 0], .float 0.25),
    (.text "007", .float 0.5)]

theorem Coefficients.reweighed_halved :
    Reweighed (1 / 2 * ·) readExact readExact sample halved := by
  unfold Reweighed sample halved
  repeat' constructor
  all_goals exact congrArg Except.ok (by decide +kernel)

theorem Plan.anneal_scaled_sample :
    (0 : ℚ) < 1 / 2 ∧
      Graph.build Coefficients.readExact Coefficients.sample = .ok Graph.sample ∧
      Coefficients.Reweighed (1 / 2 * ·) Coefficients.readExact Coefficients.readExact
        Coefficients.sample Coefficients.halved ∧
      ∃ graph', Graph.build Coefficients.readExact Coefficients.halved = .ok graph' ∧
        let exp (x : ℚ) : Float := if x < -1 then 0.25 else 0.5
        let run : Run ℚ ℚ Twister Fault := (ofNumbers exp 5 (1 / 2) 1 3).anneal Twister.source
          Graph.sample [fun step => 2 ≤ step] stepLimit (Twister.seeded 1)
        let run' : Run ℚ ℚ Twister Fault := (ofNumbers exp (5 / 2) (1 / 2) (1 / 2) 3).anneal
          Twister.source graph' [fun step => 2 ≤ step] stepLimit (Twister.seeded 1)
        run'.reports = run.reports.map (fun report =>
            ⟨report.state, 1 / 2 * report.temperature, 1 / 2 * report.energy, report.step,
              report.finished⟩) ∧
          run'.ending = run.ending ∧ run'.stream = run.stream := by
  have hpositive : (0 : ℚ) < 1 / 2 := by norm_num
  obtain ⟨graph', hbuild', hruns⟩ := anneal_scaled (ε := Fault) (ρ := Float) (σ := Twister)
    hpositive Graph.build_sample Coefficients.reweighed_halved
  refine ⟨hpositive, Graph.build_sample, Coefficients.reweighed_halved, graph', hbuild', ?_⟩
  have hrun := hruns (fun x => if x < -1 then 0.25 else 0.5) 5 (1 / 2) 1 3 Twister.source
    [fun step => 2 ≤ step] stepLimit (Twister.seeded 1)
  have hinitial : (1 / 2 * 5 : ℚ) = 5 / 2 := by norm_num
  rwa [hinitial, mul_one] at hrun

end Annealing
