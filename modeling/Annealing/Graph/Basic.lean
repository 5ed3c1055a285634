import Annealing.Graph.Ledger
import Annealing.Problem.Coefficients

/-!
# Interaction graphs

The graph of a problem: its variables in ascending order, the bias of each, and for each the
list of its neighbours.  All neighbour lists lie one after the other in two flat arrays; the list
of node `i` starts at `offsets[i]` and holds `counts[i]` neighbours, by ascending node.  A
coupling stands in the lists of both of its ends.

A node is the rank of a variable among all variables.  `Graph.ofTerms` builds the graph of terms
that have been read, `Graph.build` that of a coefficient map.  The weight type is a parameter:
weights are added up in map order, from zero and from the left, whatever addition does.
-/

namespace Annealing

structure Graph (ω : Type) where
  -- The variable of each node, ascending.
  vars : List Int
  -- The bias of each node.
  linear : Array ω
  -- Where the neighbour list of each node starts.
  offsets : Array Nat
  -- How many neighbours each node has.
  counts : Array Nat
  -- The neighbours of all nodes.
  targets : Array Nat
  -- The coupling weight of each neighbour.
  weights : Array ω
deriving DecidableEq, Repr

/-- What a term adds to, in terms of nodes. -/
inductive Place where
  | bias (i : Nat)
  -- A coupling, its lesser node first.
  | coupling (i j : Nat)
deriving DecidableEq, Repr

/-- The place of a key, given the node of each variable.  A key that names a variable twice is
    a bias. -/
def Key.place (node : Int → Nat) : Key → Place
  | one i => .bias (node i)
  | two i j =>
    if i = j then .bias (node i)
    else .coupling (min (node i) (node j)) (max (node i) (node j))

namespace Graph

variable {ω : Type}

/-! ## Reading a graph -/

def size (graph : Graph ω) : Nat :=
  graph.vars.length

/-- The number of neighbours in all lists together: two for each coupling. -/
def edgeCount (graph : Graph ω) : Nat :=
  graph.targets.size

def couplingCount (graph : Graph ω) : Nat :=
  graph.edgeCount / 2

/-- Where the neighbours of a node are in the flat arrays. -/
def slots (graph : Graph ω) (i : Nat) : List Nat :=
  List.range' (graph.offsets.getD i 0) (graph.counts.getD i 0)

/-- The neighbours of a node with their weights. -/
def neighbours [OfNat ω 0] (graph : Graph ω) (i : Nat) : List (Nat × ω) :=
  (graph.slots i).map fun k => (graph.targets.getD k 0, graph.weights.getD k 0)

/-- What is said of a graph once it is built. -/
def summary (graph : Graph ω) : String :=
  "Built graph with " ++ Text.integerText graph.size ++ " variables and " ++
    Text.integerText graph.couplingCount ++ " couplings."

/-! ## Building a graph -/

section Build

variable [OfNat ω 0] [Add ω]

/-- Add an entry to the biases, if that is where it goes. -/
def bookBias (sums : Array ω) (entry : Place × ω) : Array ω :=
  match entry.1 with
  | .bias i => sums.modify i (· + entry.2)
  | .coupling _ _ => sums

def biases (n : Nat) (entries : List (Place × ω)) : Array ω :=
  entries.foldl bookBias (Array.replicate n 0)

/-- Add an entry to the couplings, if that is where it goes. -/
def bookCoupling (ledger : Ledger (Nat × Nat) ω) (entry : Place × ω) : Ledger (Nat × Nat) ω :=
  match entry.1 with
  | .bias _ => ledger
  | .coupling i j => ledger.book (i, j) entry.2

def couplings (entries : List (Place × ω)) : Ledger (Nat × Nat) ω :=
  entries.foldl bookCoupling []

/-- The other end of a coupling that ends in node `i`. -/
def otherEnd? (i : Nat) (coupling : (Nat × Nat) × ω) : Option (Nat × ω) :=
  if coupling.1.1 = i then some (coupling.1.2, coupling.2)
  else if coupling.1.2 = i then some (coupling.1.1, coupling.2)
  else none

/-- The neighbours of node `i`, ascending. -/
def row (ledger : Ledger (Nat × Nat) ω) (i : Nat) : List (Nat × ω) :=
  (ledger.filterMap (otherEnd? i)).mergeSort fun a b => a.1 ≤ b.1

/-- Where each of several lists starts when they are laid one after the other. -/
def starts (next : Nat) : List Nat → List Nat
  | [] => []
  | count :: counts => next :: starts (next + count) counts

/-- Lay neighbour lists one after the other. -/
def ofRows (vars : List Int) (linear : Array ω) (rows : List (List (Nat × ω))) : Graph ω :=
  let counts := rows.map List.length
  { vars := vars
    linear := linear
    offsets := (starts 0 counts).toArray
    counts := counts.toArray
    targets := (rows.flatten.map Prod.fst).toArray
    weights := (rows.flatten.map Prod.snd).toArray }

def varsOf (terms : List (Term ω)) : List Int :=
  ascending (terms.flatMap fun term => term.key.vars)

def ofTerms (terms : List (Term ω)) : Graph ω :=
  let vars := varsOf terms
  let entries := terms.map fun term => (term.key.place (vars.idxOf ·), term.weight)
  let ledger := couplings entries
  ofRows vars (biases vars.length entries)
    ((List.range vars.length).map (row ledger))

/-- The graph of a coefficient map.  The whole map is read first, so a faulty map has no graph
    at all. -/
def build (weigh : Value → Value → Except Fault ω) (coefficients : Coefficients) :
    Except Fault (Graph ω) :=
  (coefficients.readTerms weigh).map ofTerms

/-- Build a graph and log it.  Nothing is logged of a faulty map. -/
def buildLogged (weigh : Value → Value → Except Fault ω) (coefficients : Coefficients) :
    List String × Except Fault (Graph ω) :=
  match build weigh coefficients with
  | .error fault => ([], .error fault)
  | .ok graph => ([graph.summary], .ok graph)

end Build

/-! ## Writing to a graph -/

inductive Part where
  | linear
  | offsets
  | counts
  | targets
  | weights
deriving DecidableEq, Repr

/-- A graph is frozen once it is built: none of its arrays can be written to. -/
def overwrite (_ : Graph ω) (_ : Part) : Except Fault (Graph ω) :=
  .error .unusable

end Graph

end Annealing
