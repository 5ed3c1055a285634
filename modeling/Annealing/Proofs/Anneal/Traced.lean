import Annealing.Proofs.Anneal.Draws

/-! # Anneals that record their accesses

An anneal reads its graph through two levels of indices: the start and the number of neighbours
of a node say where to look for its neighbours, and these say where to look in the state.  The
functions of an anneal stand here once more, with each access to an array made on its own, in
order, and recorded together with the length that the array has at that time.  What is not needed
is not read, and the state is changed in place.

* `Traced.read`, `Traced.write` — the only accesses there are.
* `value_localField`, `value_energy`, `value_trial`, `value_bits` — the results are those of the
  functions that do not record anything, for every graph and every state.
* `value_anneal` — and so are those of a whole anneal.
* `anneal_congr` — nothing else is read: graphs that agree at the accesses of an anneal have the
  same one.
-/

namespace Annealing

variable {ω τ σ ρ ε α β : Type}

/-- The arrays that an anneal works on. -/
inductive Memory where
  | part (part : Graph.Part)
  | state
deriving DecidableEq, Repr

structure Access where
  memory : Memory
  index : Nat
  -- The length of the array when it is accessed.
  size : Nat
deriving DecidableEq, Repr

/-- A result with the accesses that were made for it, in order. -/
structure Traced (α : Type) where
  value : α
  accesses : List Access

namespace Traced

instance : Monad Traced where
  pure a := ⟨a, []⟩
  bind x f := ⟨(f x.value).value, x.accesses ++ (f x.value).accesses⟩

def read (memory : Memory) (xs : Array α) (i : Nat) (default : α) : Traced α :=
  ⟨xs.getD i default, [⟨memory, i, xs.size⟩]⟩

def write (state : State) (i : Nat) (bit : UInt8) : Traced State :=
  ⟨state.set! i bit, [⟨.state, i, state.size⟩]⟩

def readBit (state : State) (i : Nat) : Traced UInt8 :=
  read .state state i 0

@[simp] theorem value_pure (a : α) : (pure a : Traced α).value = a := rfl

@[simp] theorem value_bind (x : Traced α) (f : α → Traced β) :
    (x >>= f).value = (f x.value).value := rfl

@[simp] theorem value_read (memory : Memory) (xs : Array α) (i : Nat) (default : α) :
    (read memory xs i default).value = xs.getD i default := rfl

@[simp] theorem value_readBit (state : State) (i : Nat) :
    (readBit state i).value = state.bit i := rfl

@[simp] theorem value_write (state : State) (i : Nat) (bit : UInt8) :
    (write state i bit).value = state.set! i bit := rfl

@[simp] theorem value_ite (p : Prop) [Decidable p] (x y : Traced α) :
    (if p then x else y).value = if p then x.value else y.value :=
  apply_ite value p x y

theorem value_foldlM (f : β → α → Traced β) (b : β) (xs : List α) :
    (xs.foldlM f b).value = xs.foldl (fun b a => (f b a).value) b := by
  induction xs generalizing b with
  | nil => rfl
  | cons a xs ih => rw [List.foldlM_cons, value_bind, ih, List.foldl_cons]

/-! ## Neighbours -/

section Energies

variable [OfNat ω 0] [Add ω] (graph : Graph ω)

def slots (i : Nat) : Traced (List Nat) := do
  let start ← read (.part .offsets) graph.offsets i 0
  let count ← read (.part .counts) graph.counts i 0
  return List.range' start count

/-- Add the weight at a slot to a local field if the neighbour there is set. -/
def addNeighbour (state : State) (field : ω) (k : Nat) : Traced ω := do
  let neighbour ← read (.part .targets) graph.targets k 0
  let bit ← readBit state neighbour
  if bit = 1 then
    let w ← read (.part .weights) graph.weights k 0
    return field + w
  else
    return field

def localField (state : State) (i : Nat) : Traced ω := do
  let bias ← read (.part .linear) graph.linear i 0
  let slots ← slots graph i
  slots.foldlM (addNeighbour graph state) bias

/-- Add the weight at a slot of node `i` to an energy if the neighbour there is greater and set.
    Whether it is set is only looked up if it is greater. -/
def addCoupling (state : State) (i : Nat) (energy : ω) (k : Nat) : Traced ω := do
  let neighbour ← read (.part .targets) graph.targets k 0
  if i < neighbour then
    let neighbour ← read (.part .targets) graph.targets k 0
    let bit ← readBit state neighbour
    if bit = 1 then
      let w ← read (.part .weights) graph.weights k 0
      return energy + w
    else
      return energy
  else
    return energy

def addNode (state : State) (energy : ω) (i : Nat) : Traced ω := do
  let bit ← readBit state i
  if bit = 1 then
    let bias ← read (.part .linear) graph.linear i 0
    let slots ← slots graph i
    slots.foldlM (addCoupling graph state i) (energy + bias)
  else
    return energy

def energy (state : State) : Traced ω :=
  (List.range state.size).foldlM (addNode graph state) 0

omit [OfNat ω 0] [Add ω] in
theorem value_slots (i : Nat) : (slots graph i).value = graph.slots i := rfl

theorem value_addNeighbour (state : State) (field : ω) (k : Nat) :
    (addNeighbour graph state field k).value =
      if state.bit (graph.targets.getD k 0) = 1 then field + graph.weights.getD k 0 else field := by
  simp only [addNeighbour, value_bind, ↓value_ite, value_pure]
  rfl

theorem value_localField (state : State) (i : Nat) :
    (localField graph state i).value = graph.localField state i := by
  simp only [localField, value_bind, value_read, value_slots, value_foldlM, value_addNeighbour,
    Graph.localField, Graph.neighbours, List.foldl_map]

theorem value_addCoupling (state : State) (i : Nat) (energy : ω) (k : Nat) :
    (addCoupling graph state i energy k).value =
      if i < graph.targets.getD k 0 && state.bit (graph.targets.getD k 0) = 1 then
        energy + graph.weights.getD k 0
      else energy := by
  simp only [Bool.and_eq_true, decide_eq_true_eq, ite_and]
  simp only [addCoupling, value_bind, ↓value_ite, value_pure]
  rfl

theorem value_addNode (state : State) (energy : ω) (i : Nat) :
    (addNode graph state energy i).value = graph.addNode state energy i := by
  simp only [Graph.addNode, Graph.neighbours, List.foldl_map, ← value_addCoupling]
  simp only [addNode, value_bind, ↓value_ite, value_pure, value_foldlM]
  rfl

theorem value_energy (state : State) : (energy graph state).value = graph.energy state := by
  simp only [energy, value_foldlM, value_addNode, Graph.energy]

end Energies

/-! ## Sweeps -/

section Sweeps

variable [OfNat ω 0] [Add ω] [Neg ω] (graph : Graph ω)

def trial (accept : ω → Except ε Bool) (state : State) (i : Nat) :
    Traced (Except ε (State × ω)) := do
  let field ← localField graph state i
  let bit ← readBit state i
  let delta := Graph.deltaOf field bit
  match accept delta with
  | .error fault => return .error fault
  | .ok false => return .ok (state, 0)
  | .ok true =>
    let bit ← readBit state i
    let state ← write state i (if bit = 0 then 1 else 0)
    return .ok (state, delta)

/-- Draw a trial, make it, and go on, up to the first trial that fails. -/
def sweep (source : Source σ ρ) (accept : ρ → ω → Except ε Bool) (n : Nat) :
    (trials : Nat) → State → ω → (used : Nat) → σ → Traced (Swept ω ε × σ)
  | 0, state, delta, used, stream => return (⟨state, delta, used, none⟩, stream)
  | trials + 1, state, delta, used, stream => do
    let ((i, r), stream) := source.draw n stream
    match ← trial graph (accept r) state i with
    | .error fault => return (⟨state, delta, used + 1, some fault⟩, stream)
    | .ok (state, change) => sweep source accept n trials state (delta + change) (used + 1) stream

def sweepDrawn (source : Source σ ρ) (accept : ρ → ω → Except ε Bool) (state : State)
    (trials : Except ε Nat) (stream : σ) : Traced (Swept ω ε × σ) :=
  if state.size = 0 then return (⟨state, 0, 0, none⟩, stream)
  else
    match trials with
    | .error fault => return (⟨state, 0, 0, some fault⟩, stream)
    | .ok trials => sweep graph source accept state.size trials state 0 0 stream

/-- To flip a bit is to write what it is not. -/
theorem set_eq_flip (state : State) (i : Nat) :
    state.set! i (if state.bit i = 0 then 1 else 0) = state.flip i := by
  apply Array.ext_getElem?
  intro j
  simp only [State.flip, Array.set!_eq_setIfInBounds, Array.getElem?_setIfInBounds,
    Array.getElem?_modify]
  by_cases hij : i = j
  · subst hij
    by_cases hi : i < state.size <;> simp [State.bit, hi]
  · simp only [if_neg hij]

theorem value_trial (accept : ω → Except ε Bool) (state : State) (i : Nat) :
    (trial graph accept state i).value = graph.trial accept state i := by
  simp only [trial, value_bind, value_localField, value_readBit, Graph.trial, Graph.flipDelta]
  cases accept (Graph.deltaOf (graph.localField state i) (state.bit i)) with
  | error fault => rfl
  | ok accepted =>
    cases accepted with
    | false => rfl
    | true =>
      simp only [Except.map, if_true, ← set_eq_flip]
      rfl

theorem value_sweep (source : Source σ ρ) (accept : ρ → ω → Except ε Bool) (n trials : Nat)
    (state : State) (delta : ω) (used : Nat) (stream : σ) :
    (sweep graph source accept n trials state delta used stream).value =
      graph.sweepByTurns source accept n trials state delta used stream := by
  induction trials generalizing state delta used stream with
  | zero => rfl
  | succ trials ih =>
    simp only [sweep, Graph.sweepByTurns, value_bind, value_trial]
    cases graph.trial (accept (source.draw n stream).1.2) state (source.draw n stream).1.1 with
    | error fault => rfl
    | ok result => exact ih _ _ _ _

theorem value_sweepDrawn (source : Source σ ρ) (accept : ρ → ω → Except ε Bool) (state : State)
    (trials : Except ε Nat) (stream : σ) :
    (sweepDrawn graph source accept state trials stream).value =
      graph.sweepDrawn source accept state trials stream := by
  rw [Graph.sweepDrawn_eq_sweepByTurns]
  unfold sweepDrawn
  split
  · rfl
  · cases trials with
    | error fault => rfl
    | ok trials => exact value_sweep graph source accept _ _ _ _ _ _

end Sweeps

/-! ## States -/

/-- Draw `n` bits of a state, from place `i` on. -/
def fill (source : Source σ ρ) : (i n : Nat) → State → σ → Traced (State × σ)
  | _, 0, state, stream => return (state, stream)
  | i, n + 1, state, stream => do
    let (coin, stream) := source.coin stream
    let state ← write state i (if coin then 1 else 0)
    fill source (i + 1) n state stream

/-- Draw a state into memory that may hold anything. -/
def bits (source : Source σ ρ) (memory : State) (stream : σ) : Traced (State × σ) :=
  fill source 0 memory.size memory stream

/-- To write behind the places that are filled is to push. -/
theorem extract_set_succ {state : State} {i : Nat} (hi : i < state.size) (bit : UInt8) :
    (state.set! i bit).extract 0 (i + 1) = (state.extract 0 i).push bit := by
  have hmin : min i state.size = i := by omega
  apply Array.ext_getElem?
  intro j
  rw [Array.getElem?_push, Array.getElem?_extract, Array.getElem?_extract]
  simp only [Array.set!_eq_setIfInBounds, Array.getElem?_setIfInBounds, Array.size_extract]
  rcases Nat.lt_trichotomy j i with hj | rfl | hj
  · simp [hj, hj.ne, hj.ne', Nat.lt_succ_of_lt hj, hmin]
  · simp [hi, hi.le]
  · simp [show ¬ j < i + 1 by omega, show ¬ j < i by omega, hmin, hj.ne']

/-- The bits that are drawn already stand in front of those that are still anything. -/
theorem value_fill (source : Source σ ρ) {i n : Nat} {state : State}
    (hsize : state.size = i + n) (stream : σ) :
    (fill source i n state stream).value = source.bitsAfter n (state.extract 0 i) stream := by
  induction n generalizing i state stream with
  | zero =>
    obtain rfl : state.size = i := hsize
    simp [fill, Source.bitsAfter]
  | succ n ih =>
    simp only [fill, value_bind, value_write, Source.bitsAfter]
    rw [ih (by rw [Array.size_set!, hsize]; omega), extract_set_succ (by omega)]

/-- Nothing of what the memory held is left in a state that is drawn. -/
theorem value_bits (source : Source σ ρ) (memory : State) (stream : σ) :
    (bits source memory stream).value = source.bits memory.size stream := by
  rw [bits, value_fill source (Nat.zero_add _).symm, Source.bits, Array.extract_zero]

/-! ## Anneals -/

section Anneals

variable [OfNat ω 0] [Add ω] [Neg ω] (plan : Plan τ ω ρ ε) (source : Source σ ρ)
  (graph : Graph ω)

/-- What a cooling step does once its sweep is over. -/
def settle (walk : Walk ω τ σ) (swept : Swept ω ε × σ) : Except ε (Walk ω τ σ) × σ :=
  match swept.1.fault? with
  | some fault => (.error fault, swept.2)
  | none =>
    match plan.cool walk.temperature with
    | .error fault => (.error fault, swept.2)
    | .ok cooler =>
      match plan.announce cooler with
      | .error fault => (.error fault, swept.2)
      | .ok () =>
        (.ok ⟨swept.1.state, cooler, walk.energy + swept.1.delta, walk.step + 1, swept.2⟩, swept.2)

def coolingStep (walk : Walk ω τ σ) : Traced (Except ε (Walk ω τ σ) × σ) := do
  let swept ←
    sweepDrawn graph source (plan.accept walk.temperature) walk.state plan.trials walk.stream
  return settle plan walk swept

def runFrom (stops : List Signal) :
    (limit : Nat) → Walk ω τ σ → List (Report ω τ) → Traced (Run ω τ σ ε)
  | 0, walk, reports => return ⟨reports.reverse, .unfinished, walk.stream⟩
  | limit + 1, walk, reports =>
    match plan.hot walk.temperature with
    | .error fault => return ⟨reports.reverse, .failed fault, walk.stream⟩
    | .ok false => return ⟨(walk.report true :: reports).reverse, .finished, walk.stream⟩
    | .ok true =>
      if stops.any (· walk.step) then
        return ⟨reports.reverse, .cancelled walk.step, walk.stream⟩
      else do
        match ← coolingStep plan source graph walk with
        | (.error fault, stream) => return ⟨reports.reverse, .failed fault, stream⟩
        | (.ok walk, _) => runFrom stops limit walk (walk.report false :: reports)

def start (stream : σ) : Traced (Walk ω τ σ) := do
  let (state, stream) ← bits source (Array.replicate graph.size 0) stream
  let energy ← energy graph state
  return ⟨state, plan.initial, energy, 0, stream⟩

def anneal (stops : List Signal) (limit : Nat) (stream : σ) : Traced (Run ω τ σ ε) := do
  let walk ← start plan source graph stream
  runFrom plan source graph stops limit walk []

theorem value_coolingStep (walk : Walk ω τ σ) :
    (coolingStep plan source graph walk).value = plan.coolingStep source graph walk := by
  simp only [coolingStep, value_bind, value_sweepDrawn, value_pure]
  rfl

theorem value_runFrom (stops : List Signal) (limit : Nat) (walk : Walk ω τ σ)
    (reports : List (Report ω τ)) :
    (runFrom plan source graph stops limit walk reports).value =
      plan.runFrom source graph stops limit walk reports := by
  induction limit generalizing walk reports with
  | zero => rfl
  | succ limit ih =>
    rw [runFrom, Plan.runFrom]
    cases plan.hot walk.temperature with
    | error fault => rfl
    | ok hot =>
      cases hot with
      | false => rfl
      | true =>
        simp only [value_ite, value_bind, value_coolingStep, value_pure]
        split
        · rfl
        · obtain ⟨result, after⟩ := plan.coolingStep source graph walk
          cases result with
          | error fault => rfl
          | ok next => exact ih next _

omit [Neg ω] in
theorem value_start (stream : σ) :
    (start plan source graph stream).value = plan.start source graph stream := by
  simp only [start, value_bind, value_bits, value_energy, value_pure, Array.size_replicate,
    Plan.start]

/-- An anneal is the same whether or not its accesses are recorded. -/
theorem value_anneal (stops : List Signal) (limit : Nat) (stream : σ) :
    (anneal plan source graph stops limit stream).value =
      plan.anneal source graph stops limit stream := by
  simp only [anneal, value_bind, value_start, value_runFrom, Plan.anneal]

end Anneals

/-! ## All that is read -/

/-- Two graphs have the same at the place of an access, if that is one to a graph. -/
def AgreeAt [OfNat ω 0] (graph graph' : Graph ω) (access : Access) : Prop :=
  match access.memory with
  | .part .linear => graph'.linear.getD access.index 0 = graph.linear.getD access.index 0
  | .part .offsets => graph'.offsets.getD access.index 0 = graph.offsets.getD access.index 0
  | .part .counts => graph'.counts.getD access.index 0 = graph.counts.getD access.index 0
  | .part .targets => graph'.targets.getD access.index 0 = graph.targets.getD access.index 0
  | .part .weights => graph'.weights.getD access.index 0 = graph.weights.getD access.index 0
  | .state => True

/-- Where two graphs agree at the accesses of one result, it is the other one. -/
def Congruent [OfNat ω 0] (graph graph' : Graph ω) (x x' : Traced α) : Prop :=
  (∀ access ∈ x.accesses, AgreeAt graph graph' access) → x'.value = x.value

section Congruent

variable [OfNat ω 0] {graph graph' : Graph ω}

theorem Congruent.refl (x : Traced α) : Congruent graph graph' x x :=
  fun _ => rfl

theorem congruent_read {memory : Memory} {xs xs' : Array α} {i : Nat} {default : α}
    (hread : AgreeAt graph graph' ⟨memory, i, xs.size⟩ → xs'.getD i default = xs.getD i default) :
    Congruent graph graph' (read memory xs i default) (read memory xs' i default) :=
  fun hagree => hread (hagree _ List.mem_cons_self)

theorem Congruent.bind {x x' : Traced α} {f f' : α → Traced β} (hx : Congruent graph graph' x x')
    (hf : Congruent graph graph' (f x.value) (f' x.value)) :
    Congruent graph graph' (x >>= f) (x' >>= f') := by
  intro hagree
  have hvalue : x'.value = x.value :=
    hx fun access hmem => hagree access (List.mem_append_left _ hmem)
  rw [value_bind, value_bind, hvalue]
  exact hf fun access hmem => hagree access (List.mem_append_right _ hmem)

theorem congruent_foldlM {f f' : β → α → Traced β}
    (hf : ∀ b a, Congruent graph graph' (f b a) (f' b a)) (b : β) (xs : List α) :
    Congruent graph graph' (xs.foldlM f b) (xs.foldlM f' b) := by
  induction xs generalizing b with
  | nil => exact .refl _
  | cons a xs ih => exact (hf b a).bind (ih _)

variable (graph graph')

theorem congruent_slots (i : Nat) : Congruent graph graph' (slots graph i) (slots graph' i) :=
  (congruent_read id).bind ((congruent_read id).bind (.refl _))

variable [Add ω]

theorem congruent_addNeighbour (state : State) (field : ω) (k : Nat) :
    Congruent graph graph' (addNeighbour graph state field k) (addNeighbour graph' state field k) := by
  refine (congruent_read id).bind ((Congruent.refl _).bind ?_)
  split
  · exact (congruent_read id).bind (.refl _)
  · exact .refl _

theorem congruent_localField (state : State) (i : Nat) :
    Congruent graph graph' (localField graph state i) (localField graph' state i) :=
  (congruent_read id).bind ((congruent_slots graph graph' i).bind
    (congruent_foldlM (congruent_addNeighbour graph graph' state) _ _))

theorem congruent_addCoupling (state : State) (i : Nat) (energy : ω) (k : Nat) :
    Congruent graph graph' (addCoupling graph state i energy k)
      (addCoupling graph' state i energy k) := by
  refine (congruent_read id).bind ?_
  split
  · refine (congruent_read id).bind ((Congruent.refl _).bind ?_)
    split
    · exact (congruent_read id).bind (.refl _)
    · exact .refl _
  · exact .refl _

theorem congruent_addNode (state : State) (energy : ω) (i : Nat) :
    Congruent graph graph' (addNode graph state energy i) (addNode graph' state energy i) := by
  refine (Congruent.refl _).bind ?_
  split
  · exact (congruent_read id).bind ((congruent_slots graph graph' i).bind
      (congruent_foldlM (congruent_addCoupling graph graph' state i) _ _))
  · exact .refl _

theorem congruent_energy (state : State) :
    Congruent graph graph' (energy graph state) (energy graph' state) :=
  congruent_foldlM (congruent_addNode graph graph' state) _ _

variable [Neg ω]

theorem congruent_trial (accept : ω → Except ε Bool) (state : State) (i : Nat) :
    Congruent graph graph' (trial graph accept state i) (trial graph' accept state i) :=
  (congruent_localField graph graph' state i).bind (.refl _)

theorem congruent_sweep (source : Source σ ρ) (accept : ρ → ω → Except ε Bool) (n trials : Nat)
    (state : State) (delta : ω) (used : Nat) (stream : σ) :
    Congruent graph graph' (sweep graph source accept n trials state delta used stream)
      (sweep graph' source accept n trials state delta used stream) := by
  induction trials generalizing state delta used stream with
  | zero => exact .refl _
  | succ trials ih =>
    refine (congruent_trial graph graph' _ state _).bind ?_
    split
    · exact .refl _
    · exact ih _ _ _ _

theorem congruent_sweepDrawn (source : Source σ ρ) (accept : ρ → ω → Except ε Bool)
    (state : State) (trials : Except ε Nat) (stream : σ) :
    Congruent graph graph' (sweepDrawn graph source accept state trials stream)
      (sweepDrawn graph' source accept state trials stream) := by
  unfold sweepDrawn
  split
  · exact .refl _
  · cases trials with
    | error fault => exact .refl _
    | ok trials => exact congruent_sweep graph graph' source accept _ _ _ _ _ _

variable (plan : Plan τ ω ρ ε) (source : Source σ ρ)

theorem congruent_runFrom (stops : List Signal) (limit : Nat) (walk : Walk ω τ σ)
    (reports : List (Report ω τ)) :
    Congruent graph graph' (runFrom plan source graph stops limit walk reports)
      (runFrom plan source graph' stops limit walk reports) := by
  induction limit generalizing walk reports with
  | zero => exact .refl _
  | succ limit ih =>
    simp only [runFrom]
    split
    · exact .refl _
    · exact .refl _
    · split
      · exact .refl _
      · refine ((congruent_sweepDrawn graph graph' source _ _ _ _).bind (.refl _)).bind ?_
        split
        · exact .refl _
        · exact ih _ _

/-- The record is complete: graphs of one size that agree at all accesses of an anneal have the
    same anneal. -/
theorem anneal_congr (hsize : graph'.size = graph.size) (stops : List Signal) (limit : Nat)
    (stream : σ)
    (hagree : ∀ access ∈ (anneal plan source graph stops limit stream).accesses,
      AgreeAt graph graph' access) :
    plan.anneal source graph' stops limit stream = plan.anneal source graph stops limit stream := by
  rw [← value_anneal, ← value_anneal]
  have hstart : Congruent graph graph' (start plan source graph stream)
      (start plan source graph' stream) := by
    unfold start
    rw [hsize]
    exact (Congruent.refl _).bind ((congruent_energy graph graph' _).bind (.refl _))
  exact hstart.bind (congruent_runFrom graph graph' plan source stops limit _ []) hagree

end Congruent

end Traced

end Annealing
