import Annealing.Proofs.Anneal.Images

/-! # Anneals of graphs with the same energies

An anneal learns nothing of a graph but the energies of its states.  Two graphs of one size with
the same energy in every state may store different couplings, among them couplings of weight
zero; they are annealed alike, draw by draw.

* `flipDelta_eq` — the change of energy of a flip is a difference of two energies.
* `sweep_eq`, `sweepDrawn_eq`, `coolingStep_eq` — so equal energies make equal trials, sweeps and
  cooling steps.
* `runFrom_eq` — and equal cooling steps make equal runs.
* `anneal_eq_of_energy_eq` — the whole anneal is the same, for the graphs of any two maps.
-/

namespace Annealing

open State (Binary)

variable {ω τ σ ρ ε : Type} [AddCommGroup ω]

/-- Two well-formed graphs have as many nodes and the same energy in every state. -/
structure Graph.SameLandscape (graph other : Graph ω) : Prop where
  wellFormed : graph.WellFormed
  wellFormed_other : other.WellFormed
  size_eq : graph.size = other.size
  energy_eq : ∀ state, Binary graph.size state → graph.energy state = other.energy state

namespace Graph

variable {graph other : Graph ω}

/-! ## Sweeps -/

/-- What a flip changes shows in the energies before and after it. -/
theorem flipDelta_eq (hsame : graph.SameLandscape other) {state : State}
    (hbinary : Binary graph.size state) {i : Nat} (hi : i < graph.size) :
    graph.flipDelta state i = other.flipDelta state i := by
  have hbinary' : Binary other.size state := hsame.size_eq ▸ hbinary
  have hflip := energy_flip hsame.wellFormed hbinary hi
  have hflip' := energy_flip hsame.wellFormed_other hbinary' (hsame.size_eq ▸ hi)
  rw [hsame.energy_eq _ (hbinary.flip hi), hsame.energy_eq _ hbinary, hflip'] at hflip
  exact (add_left_cancel hflip).symm

theorem trial_eq (hsame : graph.SameLandscape other) (accept : ω → Except ε Bool) {state : State}
    (hbinary : Binary graph.size state) {i : Nat} (hi : i < graph.size) :
    graph.trial accept state i = other.trial accept state i := by
  rw [trial, trial, flipDelta_eq hsame hbinary hi]

theorem sweep_eq (hsame : graph.SameLandscape other) (accept : ρ → ω → Except ε Bool)
    {state : State} (hbinary : Binary graph.size state) (delta : ω) (used : Nat)
    {draws : List (Nat × ρ)} (hdraws : ∀ draw ∈ draws, draw.1 < graph.size) :
    graph.sweep accept state delta used draws = other.sweep accept state delta used draws := by
  induction draws generalizing state delta used with
  | nil => rfl
  | cons draw draws ih =>
    obtain ⟨i, r⟩ := draw
    have hi : i < graph.size := hdraws (i, r) List.mem_cons_self
    simp only [sweep]
    rw [← trial_eq hsame (accept r) hbinary hi]
    cases htrial : graph.trial (accept r) state i with
    | error fault => rfl
    | ok result =>
      obtain ⟨next, change⟩ := result
      exact ih (trial_binary hbinary hi htrial) _ _
        fun draw hmem => hdraws draw (List.mem_cons_of_mem _ hmem)

/-- The draws of a sweep depend on the number of nodes alone, and the sweep on the draws. -/
theorem sweepDrawn_eq (hsame : graph.SameLandscape other) (source : Source σ ρ)
    (accept : ρ → ω → Except ε Bool) {state : State} (hbinary : Binary graph.size state)
    (trials : Except ε Nat) (stream : σ) :
    graph.sweepDrawn source accept state trials stream =
      other.sweepDrawn source accept state trials stream := by
  unfold sweepDrawn
  split
  · rfl
  · rename_i hempty
    cases trials with
    | error fault => rfl
    | ok trials =>
      have hn : 0 < state.size := Array.size_pos_iff.mpr (by simpa using hempty)
      have hdraws := source.draws_lt hn trials stream
      rw [hbinary.size_eq] at hdraws
      simp only [hbinary.size_eq, sweep_eq hsame accept hbinary 0 0 hdraws]

end Graph

/-! ## Runs -/

namespace Plan

variable {graph other : Graph ω} (plan : Plan τ ω ρ ε) (source : Source σ ρ)

theorem coolingStep_eq (hsame : graph.SameLandscape other) {walk : Walk ω τ σ}
    (hbinary : Binary graph.size walk.state) :
    plan.coolingStep source graph walk = plan.coolingStep source other walk := by
  rw [coolingStep, coolingStep, Graph.sweepDrawn_eq hsame source _ hbinary]

theorem runFrom_eq (hsame : graph.SameLandscape other) (stops : List Signal) (limit : Nat)
    {walk : Walk ω τ σ} (hbinary : Binary graph.size walk.state) :
    plan.runFrom source graph stops limit walk [] =
      plan.runFrom source other stops limit walk [] := by
  -- Both runs stand at one walk; its state stays binary, which is what the next step needs.
  exact runFrom_congr (fun _ hbinary => coolingStep_eq plan source hsame hbinary)
    (fun _ _ _ hbinary hstep => coolingStep_binary hbinary hstep) stops limit hbinary

theorem start_eq (hsame : graph.SameLandscape other) (stream : σ) :
    plan.start source graph stream = plan.start source other stream := by
  have hdrawn := source.bits_binary graph.size stream
  rw [start, start, ← hsame.size_eq]
  simp only [hsame.energy_eq _ hdrawn]

/-- Two maps whose graphs have as many nodes, and the same energy in every state of zeros and
    ones, are annealed alike: the reports are the same, the anneal ends in the same way, and the
    same draws are used up. -/
theorem anneal_eq_of_energy_eq {weigh weigh' : Value → Value → Except Fault ω}
    {coefficients coefficients' : Coefficients} {graph other : Graph ω}
    (hbuild : Graph.build weigh coefficients = .ok graph)
    (hbuild' : Graph.build weigh' coefficients' = .ok other) (hsize : graph.size = other.size)
    (henergy : ∀ state : State, state.size = graph.size → (∀ b ∈ state, b = 0 ∨ b = 1) →
      graph.energy state = other.energy state)
    (plan : Plan τ ω ρ ε) (source : Source σ ρ) (stops : List Signal) (limit : Nat) (stream : σ) :
    plan.anneal source graph stops limit stream = plan.anneal source other stops limit stream := by
  have hsame : graph.SameLandscape other :=
    ⟨Graph.wellFormed_of_build hbuild, Graph.wellFormed_of_build hbuild', hsize,
      fun state hbinary => henergy state hbinary.size_eq fun b => hbinary.of_mem⟩
  rw [anneal, anneal, ← start_eq plan source hsame stream]
  exact runFrom_eq plan source hsame stops limit (start_binary plan source graph stream)

end Plan

/-! ## An example

A coupling whose weights cancel and a bias in one piece, against no coupling and a bias in two
pieces, under other names and in another order. -/

def Coefficients.cancelling : Coefficients :=
  [(.text "0,1", .int 1), (.text "0", .float 1.5), (.tuple [.int 1, .int 0], .int (-1))]

def Graph.cancelling : Graph ℚ where
  vars := [0, 1]
  linear := #[3 / 2, 0]
  offsets := #[0, 1]
  counts := #[1, 1]
  targets := #[1, 0]
  weights := #[0, 0]

def Coefficients.uncoupled : Coefficients :=
  [(.int 9, .int 0), (.text " -7", .int 1), (.text "-7,-07", .float 0.5)]

def Graph.uncoupled : Graph ℚ where
  vars := [-7, 9]
  linear := #[3 / 2, 0]
  offsets := #[0, 0]
  counts := #[0, 0]
  targets := #[]
  weights := #[]

theorem Plan.anneal_eq_of_energy_eq_sample :
    Graph.build Coefficients.readExact Coefficients.cancelling = .ok Graph.cancelling ∧
      Graph.build Coefficients.readExact Coefficients.uncoupled = .ok Graph.uncoupled ∧
      Graph.cancelling.size = Graph.uncoupled.size ∧
      (∀ state : State, state.size = Graph.cancelling.size → (∀ b ∈ state, b = 0 ∨ b = 1) →
        Graph.cancelling.energy state = Graph.uncoupled.energy state) ∧
      (Params.sample.plan fun _ _ delta => .ok (decide (delta ≤ 0))).anneal
          Twister.source Graph.cancelling [fun step => 3 ≤ step] stepLimit (Twister.seeded 1) =
        (Params.sample.plan fun _ _ delta => .ok (decide (delta ≤ 0))).anneal
          Twister.source Graph.uncoupled [fun step => 3 ≤ step] stepLimit (Twister.seeded 1) := by
  have hbuild : Graph.build Coefficients.readExact Coefficients.cancelling =
      .ok Graph.cancelling := Graph.build_eq_ok_iff.mpr ⟨_, rfl, by decide +kernel⟩
  have hbuild' : Graph.build Coefficients.readExact Coefficients.uncoupled =
      .ok Graph.uncoupled := Graph.build_eq_ok_iff.mpr ⟨_, rfl, by decide +kernel⟩
  have henergy : ∀ state : State, state.size = Graph.cancelling.size →
      (∀ b ∈ state, b = 0 ∨ b = 1) →
      Graph.cancelling.energy state = Graph.uncoupled.energy state := by
    rintro ⟨bits⟩ hsize hbits
    obtain ⟨a, b, rfl⟩ := List.length_eq_two.mp hsize
    cases hbits a (by simp) with
    | inl ha => cases hbits b (by simp) <;> subst a b <;> decide +kernel
    | inr ha => cases hbits b (by simp) <;> subst a b <;> decide +kernel
  exact ⟨hbuild, hbuild', rfl, henergy,
    anneal_eq_of_energy_eq hbuild hbuild' rfl henergy _ _ _ _ _⟩

end Annealing
