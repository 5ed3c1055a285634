import Annealing.Proofs.Anneal.Reports
import Annealing.Proofs.Anneal.Traced

/-! # Accesses stay in range

No anneal of a graph that is built reads or writes beside an array.  The start and the number of
neighbours of a node are looked up at a node; they lead to slots of that node, which lie in the
flat arrays because the slots of all nodes fill these; and what lies there is a node again, at
which the state can be read.  A node without neighbours leads nowhere, even if its slots would
start behind the end.  Sweeps keep the length of the state, so it goes on like this.

* `Traced.Fits` — what is asked of the accesses of one result.
* `fits_localField`, `fits_energy`, `fits_trial`, `fits_bits` — the single functions.
* `fits_sweep`, `fits_runFrom` — the loops.
* `accesses_of_build` — a whole anneal.
-/

namespace Annealing

variable {ω τ σ ρ ε α β : Type}

/-- The length that an array of an anneal should have. -/
def Graph.lengthOf (graph : Graph ω) : Memory → Nat
  | .part .linear => graph.linear.size
  | .part .offsets => graph.offsets.size
  | .part .counts => graph.counts.size
  | .part .targets => graph.targets.size
  | .part .weights => graph.weights.size
  | .state => graph.size

namespace Traced

/-- Every access is one to an array of the right length, at a place in it. -/
def Fits (graph : Graph ω) (x : Traced α) : Prop :=
  ∀ access ∈ x.accesses,
    access.index < access.size ∧ access.size = graph.lengthOf access.memory

section Fits

variable {graph : Graph ω}

theorem fits_pure (a : α) : Fits graph (pure a) := by
  intro access hmem
  cases hmem

theorem fits_read {memory : Memory} {xs : Array α} {i : Nat} {default : α} (hi : i < xs.size)
    (hsize : xs.size = graph.lengthOf memory) : Fits graph (read memory xs i default) := by
  intro access hmem
  obtain rfl := List.mem_singleton.mp hmem
  exact ⟨hi, hsize⟩

theorem fits_readBit {state : State} {i : Nat} (hsize : state.size = graph.size)
    (hi : i < graph.size) : Fits graph (readBit state i) :=
  fits_read (hsize.symm ▸ hi) hsize

theorem fits_write {state : State} {i : Nat} {bit : UInt8} (hsize : state.size = graph.size)
    (hi : i < graph.size) : Fits graph (write state i bit) := by
  intro access hmem
  obtain rfl := List.mem_singleton.mp hmem
  exact ⟨hsize.symm ▸ hi, hsize⟩

theorem Fits.bind {x : Traced α} {f : α → Traced β} (hx : Fits graph x)
    (hf : Fits graph (f x.value)) : Fits graph (x >>= f) := by
  intro access hmem
  rcases List.mem_append.mp hmem with hmem | hmem
  · exact hx access hmem
  · exact hf access hmem

theorem fits_foldlM {f : β → α → Traced β} {xs : List α}
    (hf : ∀ b, ∀ a ∈ xs, Fits graph (f b a)) (b : β) : Fits graph (xs.foldlM f b) := by
  induction xs generalizing b with
  | nil => exact fits_pure b
  | cons a xs ih =>
    exact (hf b a List.mem_cons_self).bind
      (ih (fun b a hmem => hf b a (List.mem_cons_of_mem _ hmem)) _)

end Fits

/-! ## Energies -/

section Lookups

variable [OfNat ω 0] {graph : Graph ω} (hwf : graph.WellFormed)

include hwf

theorem fits_linear {i : Nat} (hi : i < graph.size) :
    Fits graph (read (.part .linear) graph.linear i 0) :=
  fits_read (hwf.size_linear.symm ▸ hi) rfl

theorem fits_slots {i : Nat} (hi : i < graph.size) : Fits graph (slots graph i) :=
  (fits_read (hwf.size_offsets.symm ▸ hi) rfl).bind
    ((fits_read (hwf.size_counts.symm ▸ hi) rfl).bind (fits_pure _))

theorem fits_target {i k : Nat} (hi : i < graph.size) (hk : k ∈ graph.slots i) :
    Fits graph (read (.part .targets) graph.targets k 0) :=
  fits_read (hwf.lt_edgeCount_iff.mpr ⟨i, hi, hk⟩) rfl

theorem fits_weight {i k : Nat} (hi : i < graph.size) (hk : k ∈ graph.slots i) :
    Fits graph (read (.part .weights) graph.weights k 0) :=
  fits_read (hwf.size_weights.symm ▸ hwf.lt_edgeCount_iff.mpr ⟨i, hi, hk⟩) rfl

/-- What a slot holds is a node. -/
theorem target_lt_of_mem_slots {i k : Nat} (hk : k ∈ graph.slots i) :
    graph.targets.getD k 0 < graph.size :=
  hwf.target_lt i (_, graph.weights.getD k 0) (List.mem_map.mpr ⟨k, hk, rfl⟩)

end Lookups

section Energies

variable [OfNat ω 0] [Add ω] {graph : Graph ω} (hwf : graph.WellFormed) {state : State}
  (hsize : state.size = graph.size)

include hwf hsize

theorem fits_addNeighbour {i k : Nat} (hi : i < graph.size) (hk : k ∈ graph.slots i) (field : ω) :
    Fits graph (addNeighbour graph state field k) := by
  refine (fits_target hwf hi hk).bind ?_
  refine (fits_readBit hsize (target_lt_of_mem_slots hwf hk)).bind ?_
  split
  · exact (fits_weight hwf hi hk).bind (fits_pure _)
  · exact fits_pure _

theorem fits_localField {i : Nat} (hi : i < graph.size) : Fits graph (localField graph state i) := by
  refine (fits_linear hwf hi).bind ((fits_slots hwf hi).bind ?_)
  exact fits_foldlM (fun field k hk => fits_addNeighbour hwf hsize hi hk field) _

/-- The list of the last node of this graph is empty, and would start behind all others. -/
example : (localField Graph.sample #[1, 1, 1, 1, 1] 4).accesses =
    [⟨.part .linear, 4, 5⟩, ⟨.part .offsets, 4, 5⟩, ⟨.part .counts, 4, 5⟩] := rfl

theorem fits_addCoupling {i k : Nat} (hi : i < graph.size) (hk : k ∈ graph.slots i) (energy : ω) :
    Fits graph (addCoupling graph state i energy k) := by
  refine (fits_target hwf hi hk).bind ?_
  split
  · refine (fits_target hwf hi hk).bind ?_
    refine (fits_readBit hsize (target_lt_of_mem_slots hwf hk)).bind ?_
    split
    · exact (fits_weight hwf hi hk).bind (fits_pure _)
    · exact fits_pure _
  · exact fits_pure _

theorem fits_addNode {i : Nat} (hi : i < graph.size) (energy : ω) :
    Fits graph (addNode graph state energy i) := by
  refine (fits_readBit hsize hi).bind ?_
  split
  · refine (fits_linear hwf hi).bind ((fits_slots hwf hi).bind ?_)
    exact fits_foldlM (fun energy k hk => fits_addCoupling hwf hsize hi hk energy) _
  · exact fits_pure _

theorem fits_energy : Fits graph (energy graph state) :=
  fits_foldlM (fun energy _ hi =>
    fits_addNode hwf hsize (hsize ▸ List.mem_range.mp hi) energy) 0

end Energies

/-! ## Sweeps -/

section Sweeps

variable [OfNat ω 0] [Add ω] [Neg ω] {graph : Graph ω} (hwf : graph.WellFormed)

include hwf

theorem fits_trial (accept : ω → Except ε Bool) {state : State} (hsize : state.size = graph.size)
    {i : Nat} (hi : i < graph.size) : Fits graph (trial graph accept state i) := by
  refine (fits_localField hwf hsize hi).bind ((fits_readBit hsize hi).bind ?_)
  dsimp only
  split
  · exact fits_pure _
  · exact fits_pure _
  · exact (fits_readBit hsize hi).bind ((fits_write hsize hi).bind (fits_pure _))

/-- Each trial of a sweep finds a state as long as the first one did. -/
theorem fits_sweep (source : Source σ ρ) (accept : ρ → ω → Except ε Bool) (hnodes : 0 < graph.size)
    (trials : Nat) {state : State} (hsize : state.size = graph.size) (delta : ω) (used : Nat)
    (stream : σ) :
    Fits graph (sweep graph source accept graph.size trials state delta used stream) := by
  induction trials generalizing state delta used stream with
  | zero => exact fits_pure _
  | succ trials ih =>
    have hi : (source.draw graph.size stream).1.1 < graph.size :=
      source.place_lt graph.size stream hnodes
    simp only [sweep]
    refine (fits_trial hwf _ hsize hi).bind ?_
    rw [value_trial]
    cases htrial : graph.trial (accept (source.draw graph.size stream).1.2) state
      (source.draw graph.size stream).1.1 with
    | error fault => exact fits_pure _
    | ok result =>
      obtain ⟨next, change⟩ := result
      -- The trial keeps the length, so that the rest of the sweep is a sweep of the same kind.
      exact ih ((Graph.size_of_trial htrial).trans hsize) _ _ _

theorem fits_sweepDrawn (source : Source σ ρ) (accept : ρ → ω → Except ε Bool) {state : State}
    (hsize : state.size = graph.size) (trials : Except ε Nat) (stream : σ) :
    Fits graph (sweepDrawn graph source accept state trials stream) := by
  unfold sweepDrawn
  split
  · exact fits_pure _
  · rename_i hnodes
    cases trials with
    | error fault => exact fits_pure _
    | ok trials =>
      -- Places are drawn below the length of the state, which is that of the graph.
      have hsweep := fits_sweep hwf source accept (by omega : 0 < graph.size) trials hsize 0 0 stream
      rwa [← hsize] at hsweep

end Sweeps

/-! ## States -/

theorem fits_fill {graph : Graph ω} (source : Source σ ρ) {i n : Nat} {state : State}
    (hsize : state.size = graph.size) (hn : i + n ≤ graph.size) (stream : σ) :
    Fits graph (fill source i n state stream) := by
  induction n generalizing i state stream with
  | zero => exact fits_pure _
  | succ n ih =>
    refine (fits_write hsize (by omega)).bind (ih ?_ (by omega) _)
    rw [value_write, Array.size_set!, hsize]

theorem fits_bits {graph : Graph ω} (source : Source σ ρ) {memory : State}
    (hsize : memory.size = graph.size) (stream : σ) : Fits graph (bits source memory stream) :=
  fits_fill source hsize (by omega) stream

/-! ## Anneals -/

section Anneals

variable [OfNat ω 0] [Add ω] [Neg ω] (plan : Plan τ ω ρ ε) (source : Source σ ρ)
  {graph : Graph ω} (hwf : graph.WellFormed)

include hwf

theorem fits_coolingStep {walk : Walk ω τ σ} (hsize : walk.state.size = graph.size) :
    Fits graph (coolingStep plan source graph walk) :=
  (fits_sweepDrawn hwf source _ hsize _ _).bind (fits_pure _)

theorem fits_runFrom (stops : List Signal) (limit : Nat) {walk : Walk ω τ σ}
    (hsize : walk.state.size = graph.size) (reports : List (Report ω τ)) :
    Fits graph (runFrom plan source graph stops limit walk reports) := by
  induction limit generalizing walk reports with
  | zero => exact fits_pure _
  | succ limit ih =>
    rw [runFrom]
    split
    · exact fits_pure _
    · exact fits_pure _
    · split
      · exact fits_pure _
      · refine (fits_coolingStep plan source hwf hsize).bind ?_
        rw [value_coolingStep]
        cases hstep : plan.coolingStep source graph walk with
        | mk result after =>
          cases result with
          | error fault => exact fits_pure _
          | ok next =>
            exact ih ((Plan.stream_coolingStep hstep).1.trans hsize) _

omit [Neg ω] in
theorem fits_start (stream : σ) : Fits graph (start plan source graph stream) := by
  have hsize : (bits source (Array.replicate graph.size 0) stream).value.1.size = graph.size := by
    rw [value_bits, (source.bits_binary _ _).size_eq, Array.size_replicate]
  exact (fits_bits source Array.size_replicate stream).bind
    ((fits_energy hwf hsize).bind (fits_pure _))

theorem fits_anneal (stops : List Signal) (limit : Nat) (stream : σ) :
    Fits graph (anneal plan source graph stops limit stream) := by
  refine (fits_start plan source hwf stream).bind (fits_runFrom plan source hwf stops limit ?_ [])
  rw [value_start]
  exact (plan.start_binary source graph stream).size_eq

end Anneals

/-- Whatever the map, the parameters, the draws and the stop signals: an anneal of a graph that is
    built, with all of its sweeps, reads and writes its arrays at places that they have.  The
    arrays of the graph keep their lengths, and that of the state is the number of nodes at each
    access and in each report.  Nothing is read of the graph but what is recorded. -/
theorem accesses_of_build [OfNat ω 0] [Add ω] [Neg ω] {weigh : Value → Value → Except Fault ω}
    {coefficients : Coefficients} {graph : Graph ω}
    (hbuild : Graph.build weigh coefficients = .ok graph) (plan : Plan τ ω ρ ε)
    (source : Source σ ρ) (stops : List Signal) (limit : Nat) (stream : σ) :
    let traced := anneal plan source graph stops limit stream
    traced.value = plan.anneal source graph stops limit stream ∧
      (∀ access ∈ traced.accesses,
        access.index < access.size ∧ access.size = graph.lengthOf access.memory) ∧
      (∀ report ∈ traced.value.reports, report.state.size = graph.size) ∧
      ∀ graph' : Graph ω, graph'.size = graph.size →
        (∀ access ∈ traced.accesses, AgreeAt graph graph' access) →
        plan.anneal source graph' stops limit stream = traced.value := by
  have hvalue := value_anneal plan source graph stops limit stream
  have hwf := Graph.wellFormed_of_build hbuild
  refine ⟨hvalue, fits_anneal plan source hwf stops limit stream, ?_, ?_⟩
  · rw [hvalue]
    intro report hreport
    exact (plan.anneal_reports_binary source graph stops limit stream report hreport).size_eq
  · intro graph' hsize hagree
    rw [hvalue]
    exact anneal_congr graph graph' plan source hsize stops limit stream hagree

theorem accesses_of_build_sample :
    let plan := Params.sample.plan fun _ _ delta => .ok (decide (delta ≤ 0))
    let stops : List Signal := [fun step => 2 ≤ step]
    let traced := anneal plan Twister.source Graph.sample stops stepLimit (Twister.seeded 1)
    Graph.build Coefficients.readExact Coefficients.sample = .ok Graph.sample ∧
      traced.value = plan.anneal Twister.source Graph.sample stops stepLimit (Twister.seeded 1) ∧
      (∀ access ∈ traced.accesses,
        access.index < access.size ∧ access.size = Graph.sample.lengthOf access.memory) ∧
      (∀ report ∈ traced.value.reports, report.state.size = Graph.sample.size) ∧
      ∀ graph' : Graph ℚ, graph'.size = Graph.sample.size →
        (∀ access ∈ traced.accesses, AgreeAt Graph.sample graph' access) →
        plan.anneal Twister.source graph' stops stepLimit (Twister.seeded 1) = traced.value :=
  ⟨Graph.build_sample, accesses_of_build Graph.build_sample _ _ _ _ _⟩

end Traced

end Annealing
