import Annealing.Proofs.Problem.Refusals
import Annealing.Proofs.Session.Faults
import Annealing.Proofs.Session.History

/-! # Refused maps at work

A solver is set up from the keys of a map, and what its weights are is found only when a graph is
needed.  A map whose weights are bad has no graph, so there is none to keep either: each request
that needs it is refused anew, with one and the same fault.

* `Request.NeedsGraph` — the requests that are refused.
* `answers_of_refused` — a session with a solver that has no graph.
* `refusals_of_map` — what is refused, and with which fault: by the graph, by the solver and by its
  sessions.
-/

namespace Annealing

/-- The request asks for a graph, or for something that is computed with one.  What it supplies is
    what a caller can supply: there is no map with keys that cannot be keys. -/
def Request.NeedsGraph : Request → Prop
  | .graph | .solve _ _ => True
  | .energy assignment => Value.soundEntries assignment = true
  | .sample count => count.isSound = true
  | .change _ | .reseed _ => False

/-! ## Requests -/

namespace Session

variable {ω σ ρ : Type} [OfNat ω 0] [OfNat ω 1] [OfNat ω 2] [Add ω] [Neg ω] [Mul ω] [Div ω]
  {engine : Engine ω σ ρ} {solver : Solver} {session : Session ω σ} {fault : Fault}

/-- A request that needs a graph is refused if there is none, with the fault of the graph. -/
theorem answer_of_refused (hfaithful : Faithful engine solver session)
    (hrefused : solver.graph engine = .error fault) {request : Request}
    (hneeds : request.NeedsGraph) : (session.answer engine request).1 = .error fault := by
  cases request with
  | change edit => exact hneeds.elim
  | reseed seed => exact hneeds.elim
  | graph => simp [answer, hfaithful.solver_eq, hrefused, Except.map]
  | energy assignment =>
    have hentries : Value.entriesOf assignment = .ok assignment := if_pos hneeds
    simp [answer, hentries, hfaithful.keptGraph_eq, hrefused]
  | solve callback stops =>
    simp [answer, hfaithful.solver_eq, Solver.solve, hrefused, Except.map]
  | sample count =>
    have hcount : count.checked = .ok count := if_pos hneeds
    simp [answer, hcount, hfaithful.solver_eq, Solver.sample, hrefused, Except.map]

/-- No request brings the graph about, so all of them that need it are refused. -/
theorem answers_of_refused (hfaithful : Faithful engine solver session)
    (hrefused : solver.graph engine = .error fault) (requests : List Request) :
    List.Forall₂ (fun request answer => request.NeedsGraph → answer = .error fault) requests
      (session.answers engine requests) := by
  induction requests generalizing session with
  | nil => exact .nil
  | cons request requests ih =>
    exact .cons (answer_of_refused hfaithful hrefused) (ih (hfaithful.answer request))

end Session

/-! ## Solvers -/

/-- With parameters that are accepted, a solver is refused for a key or not at all. -/
theorem Solver.create_eq_error_iff {coefficients : Coefficients} {supplied : Supplied}
    {params : Params} (hread : (Params.read supplied).result = .ok params) {seed? : Option Int}
    {fault : Fault} :
    (create coefficients supplied seed?).2 = .error fault ↔
      FirstFault (fun entry fault => Key.read entry.1 = .error fault) coefficients fault := by
  rw [← Coefficients.vars_eq_error_iff]
  unfold create
  cases coefficients.vars <;> simp [hread, Except.map]

open Coefficients in
/-- Which maps are refused, and with which fault.

    A map has no graph if and only if one of its entries has a key that is refused or a weight that
    is no finite double.  The fault is that of the first such entry, its key coming before its
    weight, and nothing is logged.  If there is a graph, its variables are those of the keys.

    With parameters that are accepted there is no solver if and only if a key is refused, and the
    fault is that of the first such key, whatever the weights are.  A solver that has no graph
    refuses all requests that need one with the fault of the graph, whatever else is requested in
    between. -/
theorem Session.refusals_of_map {σ : Type} (exp : Float → Float) (source : Source σ Float)
    (memory : Storage) (coefficients : Coefficients) :
    ((∃ fault, Graph.build readWeight coefficients = .error fault) ↔
      ∃ entry ∈ coefficients, (∃ fault, Key.read entry.1 = .error fault) ∨
        ∃ fault, Unweighable entry.1 entry.2 fault) ∧
    (∀ fault log, Graph.buildLogged readWeight coefficients = (log, .error fault) ↔
      log = [] ∧ FirstFault Refused coefficients fault) ∧
    (∀ graph, Graph.build readWeight coefficients = .ok graph →
      coefficients.vars = .ok graph.vars) ∧
    ∀ supplied params seed?, (Params.read supplied).result = .ok params →
      ((∃ fault, (Solver.create coefficients supplied seed?).2 = .error fault) ↔
        ∃ entry ∈ coefficients, ∃ fault, Key.read entry.1 = .error fault) ∧
      (∀ fault, (Solver.create coefficients supplied seed?).2 = .error fault ↔
        FirstFault (fun entry fault => Key.read entry.1 = .error fault) coefficients fault) ∧
      ∀ solver fault, (Solver.create coefficients supplied seed?).2 = .ok solver →
        Graph.build readWeight coefficients = .error fault → ∀ stream requests,
          List.Forall₂ (fun request answer => request.NeedsGraph → answer = .error fault) requests
            ((fresh coefficients solver stream).answers (Engine.doubles exp source memory)
              requests) := by
  refine ⟨?_, fun fault log => ?_, fun graph => Graph.vars_of_build, ?_⟩
  · simp only [Graph.build_eq_error_iff, exists_firstFault_iff]
    apply exists_congr
    intro entry
    apply and_congr_right
    intro hentry
    constructor
    · rintro ⟨fault, hkey | ⟨-, hweight⟩⟩
      · exact .inl ⟨fault, hkey⟩
      · exact .inr ⟨fault, hweight⟩
    · rintro (⟨fault, hkey⟩ | ⟨fault, hweight⟩)
      · exact ⟨fault, .key hkey⟩
      -- A key that is refused comes before the weight.
      · cases hkey : Key.read entry.1 with
        | error other => exact ⟨other, .key hkey⟩
        | ok key => exact ⟨fault, .weight hkey hweight⟩
  · rw [Graph.buildLogged_eq_error_iff, Graph.build_eq_error_iff]
  · intro supplied params seed? hread
    refine ⟨?_, fun fault => Solver.create_eq_error_iff hread, ?_⟩
    · simp only [Solver.create_eq_error_iff hread, exists_firstFault_iff]
    · intro solver fault hcreate hbuild stream requests
      obtain ⟨vars, ready, -, -, rfl⟩ := Solver.create_eq_ok_iff.mp (Prod.ext rfl hcreate)
      have hrefused : Solver.graph (Engine.doubles exp source memory)
          ⟨coefficients, vars, ready, seed?⟩ = .error fault := hbuild
      exact answers_of_refused (faithful_fresh coefficients stream) hrefused requests

/-! ## An example

The keys are good, the second weight is a truth value and the third is infinite. -/

/-- A map without a graph for examples. -/
def Coefficients.weightless : Coefficients :=
  [(.text "0", .int 1), (.text "0,1", .bool true), (.int 2, .float (1 / 0))]

theorem Session.refusals_of_map_weightless :
    let fault := Fault.notReal (.text "0,1") (.bool true)
    let solver : Solver := ⟨Coefficients.weightless, [0, 1, 2], Params.sample, none⟩
    let requests : List Request := [.energy [], .reseed 1, .sample (.int 1), .graph]
    Graph.buildLogged Coefficients.readWeight Coefficients.weightless = ([], .error fault) ∧
      (Solver.create Coefficients.weightless (.params Params.sample) none).2 = .ok solver ∧
      List.Forall₂ (fun request answer => request.NeedsGraph → answer = .error fault) requests
        ((fresh Coefficients.weightless solver (Twister.seeded 0)).answers
          (Engine.doubles (fun x => x) Twister.source .gibibyte) requests) := by
  intro fault solver requests
  obtain ⟨-, hlogged, -, hsolver⟩ :=
    refusals_of_map (fun x => x) Twister.source .gibibyte Coefficients.weightless
  have hfirst : FirstFault Coefficients.Refused Coefficients.weightless fault := by
    refine ⟨[(.text "0", .int 1)], (.text "0,1", .bool true), [(.int 2, .float (1 / 0))], rfl,
      ?_, .weight rfl (.notReal (by simp) (by simp))⟩
    intro entry hentry other hrefused
    obtain rfl := List.mem_singleton.mp hentry
    have hread : Coefficients.readEntry Coefficients.readWeight (.text "0", .int 1) =
        .ok ⟨.one 0, 1⟩ := rfl
    cases hread.symm.trans (Coefficients.readEntry_eq_error_iff.mpr hrefused)
  have hcreate : (Solver.create Coefficients.weightless (.params Params.sample) none).2 =
      .ok solver := rfl
  obtain ⟨-, -, hanswers⟩ := hsolver (.params Params.sample) Params.sample none rfl
  refine ⟨(hlogged fault []).mpr ⟨rfl, hfirst⟩, hcreate, ?_⟩
  exact hanswers solver fault hcreate (Graph.build_eq_error_iff.mpr hfirst) _ requests

end Annealing
