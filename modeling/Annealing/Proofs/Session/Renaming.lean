import Annealing.Proofs.Anneal.Images
import Annealing.Proofs.Graph.Renaming
import Annealing.Proofs.Session.Faults

/-! # Solvers under other names

An anneal knows nodes, and no variables.  What comes out of it is put under the names of variables
last of all, so a solver of a map with other names gives the same values under these names.

* `anneal_renamed` — a graph with other names is annealed as the graph itself.
* `handOver_renamed`, `reads_renamed` — what is delivered, and what is read, is renamed.
* `create_renamed` — the solvers of the two maps side by side.
-/

namespace Annealing

variable {ω τ σ ρ ε : Type} {f : Int → Int}

/-! ## Anneals -/

section Anneals

variable [OfNat ω 0] [Add ω] [Neg ω] (graph : Graph ω)

theorem Graph.sweep_renamed (accept : ρ → ω → Except ε Bool) (state : State) (delta : ω)
    (used : Nat) (draws : List (Nat × ρ)) :
    (graph.renamed f).sweep accept state delta used draws =
      graph.sweep accept state delta used draws := by
  induction draws generalizing state delta used with
  | nil => rfl
  | cons draw draws ih =>
    obtain ⟨i, r⟩ := draw
    have htrial : (graph.renamed f).trial (accept r) state i = graph.trial (accept r) state i := rfl
    simp only [sweep, htrial, ih]

theorem Plan.coolingStep_renamed (plan : Plan τ ω ρ ε) (source : Source σ ρ)
    (walk : Walk ω τ σ) :
    plan.coolingStep source (graph.renamed f) walk = plan.coolingStep source graph walk := by
  simp only [coolingStep, Graph.sweepDrawn, Graph.sweep_renamed]

/-- A graph with other names is annealed as the graph itself. -/
theorem Plan.anneal_renamed (plan : Plan τ ω ρ ε) (source : Source σ ρ) (stops : List Signal)
    (limit : Nat) (stream : σ) :
    plan.anneal source (graph.renamed f) stops limit stream =
      plan.anneal source graph stops limit stream := by
  have hstart : plan.start source (graph.renamed f) stream = plan.start source graph stream := by
    have hsize : (graph.renamed f).size = graph.size := by simp [Graph.renamed, Graph.size]
    have henergy (state : State) : (graph.renamed f).energy state = graph.energy state := rfl
    simp only [start, hsize, henergy]
  rw [anneal, anneal, hstart]
  exact runFrom_congr (P := fun _ => True)
    (fun walk _ => coolingStep_renamed graph plan source walk) (fun _ _ _ _ _ => trivial)
    stops limit trivial

theorem Engine.annealWithin_renamed (engine : Engine ω σ ρ) (params : Params) (seed? : Option Int)
    (stops : List Signal) (limit : Nat) (stream : σ) :
    engine.annealWithin limit params seed? (graph.renamed f) stops stream =
      engine.annealWithin limit params seed? graph stops stream := by
  unfold annealWithin
  cases engine.source.streamFor seed? stream with
  | error fault => rfl
  | ok start => exact Plan.anneal_renamed graph _ _ _ _ _

end Anneals

/-! ## What is told of an anneal -/

/-- The same values under other names. -/
def Solution.renamed (f : Int → Int) (solution : Solution) : Solution :=
  solution.map (Prod.map f id)

def Call.renamed (f : Int → Int) (call : Call) : Call :=
  (Solution.renamed f call.1, call.2)

/-- What a caller has in hand, under other names.  Keys that name no variable are kept. -/
def Assignment.renamed (f : Int → Int) (assignment : Assignment) : Assignment :=
  assignment.map fun
    | (.int v, value) => (.int (f v), value)
    | entry => entry

theorem Solution.assignment_renamed (solution : Solution) :
    (Solution.renamed f solution).assignment = Assignment.renamed f solution.assignment := by
  simp [Solution.assignment, Solution.renamed, Assignment.renamed]

def Delivery.renamed (f : Int → Int) (delivery : Delivery) : Delivery :=
  ⟨delivery.calls.map (Call.renamed f), delivery.result.map (Assignment.renamed f)⟩

def Sample.renamed (f : Int → Int) (row : Sample ω) : Sample ω :=
  { row with state := Solution.renamed f row.state }

/-- The second callback does with calls under other names what the first one does with the calls
    themselves: it raises the same fault, or leaves the same behind under these names. -/
def Callback.Follows (f : Int → Int) (callback callback' : Callback) : Prop :=
  ∀ calls call, callback' (calls.map (Call.renamed f)) (Call.renamed f call) =
    (callback calls call).map (Assignment.renamed f)

namespace Solver

theorem toAssignment_renamed (graph : Graph ω) (values : List UInt8) :
    (graph.renamed f).toAssignment values = Solution.renamed f (graph.toAssignment values) := by
  rw [Graph.toAssignment, Graph.renamed, List.zip_map_left]
  rfl

theorem callOf_renamed (graph : Graph ω) (report : Report ω Temperature) :
    callOf (graph.renamed f) report = Call.renamed f (callOf graph report) := by
  rw [callOf, toAssignment_renamed]
  rfl

theorem handOver_renamed {callback callback' : Callback} (hfollows : callback.Follows f callback')
    (graph : Graph ω) (ending : Ending Fault) (calls : List Call)
    (reports : List (Report ω Temperature)) :
    handOver (graph.renamed f) callback' ending (calls.map (Call.renamed f)) reports =
      (handOver graph callback ending calls reports).renamed f := by
  induction reports generalizing calls with
  | nil => simp [handOver, Delivery.renamed, Except.map]
  | cons report reports ih =>
    simp only [handOver, callOf_renamed]
    rw [hfollows calls (callOf graph report)]
    cases callback calls (callOf graph report) with
    | error fault => simp [Delivery.renamed, Except.map]
    | ok left =>
      simp only [Except.map]
      split
      · simp [Delivery.renamed, Except.map]
      · exact ih (callOf graph report :: calls)

theorem lastRead_renamed (graph : Graph ω) (run : Run ω Temperature σ Fault) :
    lastRead (graph.renamed f) run = (lastRead graph run).map (Sample.renamed f) := by
  unfold lastRead
  cases run.ending with
  | finished =>
    cases run.reports.getLast? with
    | none => rfl
    | some report => simp [toAssignment_renamed, Except.map, Sample.renamed]
  | cancelled _ | failed _ | unfinished => rfl

section Solvers

variable [OfNat ω 0] [Add ω] [Neg ω] {engine : Engine ω σ ρ} {solver solver' : Solver}
  {graph : Graph ω}

theorem reads_renamed (hparams : solver'.params = solver.params) (count : Nat)
    (rows : List (Sample ω)) (stream : σ) :
    solver'.reads engine (graph.renamed f) count (rows.map (Sample.renamed f)) stream =
      (solver.reads engine graph count rows stream).map
        (Except.map (List.map (Sample.renamed f))) id := by
  induction count generalizing rows stream with
  | zero => simp [reads, Except.map]
  | succ count ih =>
    have hanneal : solver'.anneal engine (graph.renamed f) [] stream =
        solver.anneal engine graph [] stream := by
      simp only [anneal, Engine.anneal, Engine.annealWithin_renamed, hparams]
    simp only [reads, hanneal, lastRead_renamed]
    cases lastRead graph (solver.anneal engine graph [] stream) with
    | error fault => rfl
    | ok row => exact ih (row :: rows) _

/-- The solver of a map with other names: it has the parameters and the seed of the first solver,
    and its graph under these names. -/
structure Renamed (f : Int → Int) (engine : Engine ω σ ρ) (solver solver' : Solver) : Prop where
  vars_eq : solver'.vars = solver.vars.map f
  params_eq : solver'.params = solver.params
  seed_eq : solver'.seed? = solver.seed?
  graph_eq : solver'.graph engine = (solver.graph engine).map (Graph.renamed f)

theorem Renamed.solve_eq (hrenamed : Renamed f engine solver solver')
    {callback callback' : Callback} (hfollows : callback.Follows f callback') (stops : List Signal)
    (stream : σ) :
    solver'.solve engine callback' stops stream =
      (solver.solve engine callback stops stream).map (Except.map (Delivery.renamed f)) id := by
  unfold solve
  rw [hrenamed.graph_eq, hrenamed.params_eq, hrenamed.seed_eq]
  cases solver.graph engine with
  | error fault => rfl
  | ok graph =>
    have hopening : solver'.opening (graph.renamed f) = solver.opening graph := by
      simp [opening, hrenamed.params_eq, Graph.renamed, Graph.size]
    simp only [Except.map, hopening, Engine.anneal, Engine.annealWithin_renamed]
    cases solver.opening graph with
    | error fault => rfl
    | ok _ =>
      simp only
      cases solver.params.schedule.countSteps stepLimit with
      | error fault => rfl
      | ok _ => exact Prod.ext (congrArg Except.ok (handOver_renamed hfollows graph _ [] _)) rfl

theorem Renamed.sample_eq (hrenamed : Renamed f engine solver solver') (count : Value)
    (stream : σ) :
    solver'.sample engine count stream =
      (solver.sample engine count stream).map (Except.map (List.map (Sample.renamed f))) id := by
  unfold sample
  rw [hrenamed.graph_eq, hrenamed.seed_eq]
  cases solver.graph engine with
  | error fault => rfl
  | ok graph =>
    simp only [Except.map]
    cases engine.source.streamFor solver.seed? stream with
    | error fault => rfl
    | ok start =>
      simp only
      cases readCount engine.memory count with
      | error fault => rfl
      | ok count => exact reads_renamed hrenamed.params_eq count [] start

omit [Neg ω] in
/-- The map with other names is set up as the map itself, with the same parameters. -/
theorem exists_renamed (hblind : KeyBlind engine.weigh) {coefficients coefficients' : Coefficients}
    (hbuild : Graph.build engine.weigh coefficients = .ok graph)
    (hmono : StrictMonoOn f {v | v ∈ graph.vars}) (hrenamed : coefficients.Renamed f coefficients')
    {supplied : Supplied} {seed? : Option Int} {warnings : List Warning}
    (hcreate : create coefficients supplied seed? = (warnings, .ok solver)) :
    ∃ solver', create coefficients' supplied seed? = (warnings, .ok solver') ∧
      Renamed f engine solver solver' := by
  have hbuild' := Graph.build_renamed hblind hbuild hmono hrenamed
  obtain ⟨vars, params, hvars, hparams, rfl⟩ := create_eq_ok_iff.mp hcreate
  obtain ⟨terms, hread, rfl⟩ := Graph.build_eq_ok_iff.mp hbuild
  rw [Coefficients.vars_of_readTerms hread, Except.ok.injEq] at hvars
  have hvars' : coefficients'.vars = .ok (vars.map f) := by
    rw [Coefficients.vars_of_readTerms (Coefficients.readTerms_renamed hblind hrenamed hread),
      Graph.varsOf_renamed hmono, hvars]
  refine ⟨_, create_eq_ok_iff.mpr ⟨_, _, hvars', hparams, rfl⟩, rfl, rfl, rfl, ?_⟩
  simp only [Solver.graph, hbuild, hbuild', Except.map]

end Solvers

/-- Let a map have a graph, and let the ids in its keys be sent on by a function that is strictly
    ascending on them.  The map that names the images in their place, entry by entry, has the same
    graph but for the variables, which are the images in order.  If a solver of the map is set up,
    then with the same parameters and seed so is one of the other map, with the same warnings.  From
    there on both do the same with the same draws: a call of the callback, the solution of `solve`
    and each read of `sample` give the same values to the images, and a read has the same energy,
    temperature and number of steps; where one of them fails, so does the other, with that fault. -/
theorem create_renamed {exp : Float → Float} {source : Source σ Float} {memory : Storage}
    {coefficients coefficients' : Coefficients} {graph : Graph Float}
    (hbuild : Graph.build Coefficients.readWeight coefficients = .ok graph)
    (hmono : StrictMonoOn f {v | v ∈ graph.vars})
    (hrenamed : coefficients.Renamed f coefficients') :
    Graph.build Coefficients.readWeight coefficients' =
        .ok { graph with vars := graph.vars.map f } ∧
    ∀ supplied seed? warnings solver,
      create coefficients supplied seed? = (warnings, .ok solver) →
      ∃ solver', create coefficients' supplied seed? = (warnings, .ok solver') ∧
        solver'.vars = solver.vars.map f ∧ solver'.params = solver.params ∧
        let engine := Engine.doubles exp source memory
        (∀ callback callback', callback.Follows f callback' → ∀ stops stream,
          solver'.solve engine callback' stops stream =
            (solver.solve engine callback stops stream).map (Except.map (Delivery.renamed f)) id) ∧
        ∀ count stream,
          solver'.sample engine count stream =
            (solver.sample engine count stream).map
              (Except.map (List.map (Sample.renamed f))) id := by
  have hblind : KeyBlind (Engine.doubles exp source memory).weigh :=
    Coefficients.keyBlind_readWeight
  refine ⟨Graph.build_renamed hblind hbuild hmono hrenamed, ?_⟩
  intro supplied seed? warnings solver hcreate
  obtain ⟨solver', hcreate', hsolvers⟩ := exists_renamed hblind hbuild hmono hrenamed hcreate
  refine ⟨solver', hcreate', hsolvers.vars_eq, hsolvers.params_eq, ?_, hsolvers.sample_eq⟩
  intro callback callback' hfollows
  exact hsolvers.solve_eq hfollows

end Solver

/-! ## An example

The variables are moved far apart, to both sides of zero.  The keys are spelt in another way than
before. -/

def Coefficients.distant : Coefficients :=
  [(.tuple [.int (10 ^ 20 - 3), .text "-3"], .float 0.5),
    (.text "-3,99999999999999999997", .float (-0.25)),
    (.tuple [.int (5 * 10 ^ 20 - 3), .text " 499999999999999999997"], .int 4),
    (.text "-3", .float 1.5),
    (.text "-300000000000000000003,+499999999999999999997", .int 1),
    (.tuple [.int (5 * 10 ^ 20 - 3), .int (-3 * 10 ^ 20 - 3)], .int (-1)), (.int (-3), .float 0.5),
    (.int (7 * 10 ^ 20 - 3), .int 1)]

def farther (v : Int) : Int := 10 ^ 20 * v - 3

theorem Solver.create_renamed_distant :
    let engine := Engine.doubles Float.exp Twister.source .gibibyte
    ∃ graph solver' delivery row,
      Graph.build Coefficients.readWeight Coefficients.sample = .ok graph ∧
      Graph.build Coefficients.readWeight Coefficients.distant =
        .ok { graph with vars := graph.vars.map farther } ∧
      create Coefficients.distant (.params Params.sample) (some 1) = ([], .ok solver') ∧
      solver'.vars = [-300000000000000000003, -3, 99999999999999999997, 499999999999999999997,
        699999999999999999997] ∧
      (sampler.solve engine silent [] (Twister.seeded 0)).1 = .ok delivery ∧
      delivery.result = .ok row.state.assignment ∧
      (solver'.solve engine silent [] (Twister.seeded 0)).1 = .ok (delivery.renamed farther) ∧
      (sampler.sample engine (.int 1) (Twister.seeded 0)).1 = .ok [row] ∧
      (solver'.sample engine (.int 1) (Twister.seeded 0)).1 = .ok [row.renamed farther] := by
  intro engine
  obtain ⟨graph, hbuild⟩ : ∃ graph : Graph Float,
      Graph.build Coefficients.readWeight Coefficients.sample = .ok graph := ⟨_, rfl⟩
  have hmono : StrictMonoOn farther {v | v ∈ graph.vars} := by
    intro v _ w _ hlt
    simp only [farther]
    omega
  have hrenamed : Coefficients.sample.Renamed farther Coefficients.distant := by
    refine .cons ⟨rfl, ?_⟩ (.cons ⟨rfl, ?_⟩ (.cons ⟨rfl, ?_⟩ (.cons ⟨rfl, ?_⟩ (.cons ⟨rfl, ?_⟩
      (.cons ⟨rfl, ?_⟩ (.cons ⟨rfl, ?_⟩ (.cons ⟨rfl, ?_⟩ .nil)))))))
    all_goals
      rintro key ⟨⟩
      rfl
  have hcreate : create Coefficients.sample (.params Params.sample) (some 1) = ([], .ok sampler) :=
    rfl
  obtain ⟨hbuild', hsolvers⟩ := create_renamed hbuild hmono hrenamed
  obtain ⟨solver', hcreate', hvars', -, hsolve', hsample'⟩ := hsolvers _ _ _ _ hcreate
  have hgraph : sampler.graph engine = .ok graph := hbuild
  have hworkable : Params.sample.Workable graph.size := fun _ => ⟨⟨10, rfl⟩, .inr ⟨5, rfl⟩⟩
  have hends : Params.sample.schedule.countSteps stepLimit = .ok (some 4) := rfl
  have hstart : engine.source.streamFor sampler.seed? (Twister.seeded 0) =
      .ok (Twister.seeded 1) := rfl
  have hwritable : sampler.params.isWritable = true := by decide +kernel
  obtain ⟨row, hsample, hdelivers⟩ := sample_of_workable rfl hgraph hworkable hstart hends
  obtain ⟨delivery, hsolve, hresult⟩ := hdelivers hwritable
  have hsilent : silent.Follows farther silent :=
    fun _ call => congrArg Except.ok (Solution.assignment_renamed call.1)
  refine ⟨graph, solver', delivery, row, hbuild, hbuild', hcreate', hvars', hsolve, hresult, ?_,
    hsample, ?_⟩
  · rw [hsolve' silent silent hsilent, Prod.map_fst, hsolve]
    rfl
  · rw [hsample', Prod.map_fst, hsample]
    rfl

end Annealing
