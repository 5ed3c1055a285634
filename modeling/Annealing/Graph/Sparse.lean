import Annealing.Graph.Assignment

/-!
# The coupling matrix

The couplings of a graph as a symmetric sparse matrix with a zero diagonal, and the energy of an
assignment as a quadratic form over it.  Each coupling stands in the matrix twice, so the form
takes half of the matrix; the biases are added as they are.
-/

namespace Annealing

/-- A square matrix by rows: row `i` is at the positions from `indptr[i]` up to `indptr[i + 1]`
    of the entries. -/
structure Sparse (ω : Type) where
  size : Nat
  data : Array ω
  indices : Array Nat
  indptr : Array Nat
deriving DecidableEq, Repr

namespace Sparse

variable {ω : Type} [OfNat ω 0]

def row (matrix : Sparse ω) (i : Nat) : List (Nat × ω) :=
  let start := matrix.indptr.getD i 0
  (List.range' start (matrix.indptr.getD (i + 1) 0 - start)).map fun k =>
    (matrix.indices.getD k 0, matrix.data.getD k 0)

/-- The value at a row and a column: the sum of what is stored there. -/
def entry [Add ω] (matrix : Sparse ω) (i j : Nat) : ω :=
  (matrix.row i).foldl (fun sum e => if e.1 = j then sum + e.2 else sum) 0

def dense [Add ω] (matrix : Sparse ω) : List (List ω) :=
  (List.range matrix.size).map fun i => (List.range matrix.size).map (matrix.entry i)

def mulVec [Add ω] [Mul ω] (matrix : Sparse ω) (x : Array ω) : Array ω :=
  ((List.range matrix.size).map fun i =>
    (matrix.row i).foldl (fun sum e => sum + e.2 * x.getD e.1 0) 0).toArray

end Sparse

namespace Graph

variable {ω : Type}

def toSparse (graph : Graph ω) : Sparse ω where
  size := graph.size
  data := graph.weights
  indices := graph.targets
  indptr := graph.offsets.push graph.edgeCount

/-- The bits of a state as weights. -/
def bits [OfNat ω 0] [OfNat ω 1] (state : State) : Array ω :=
  state.map fun b => if b = 0 then 0 else 1

/-- The quadratic form of a graph at a vector: `x · (M x / 2 + b)`. -/
def quadraticForm [OfNat ω 0] [OfNat ω 2] [Add ω] [Mul ω] [Div ω] (graph : Graph ω)
    (x : Array ω) : ω :=
  let image := graph.toSparse.mulVec x
  (List.range x.size).foldl
    (fun sum i => sum + x.getD i 0 * (image.getD i 0 / 2 + graph.linear.getD i 0)) 0

/-- The energy of an assignment by the quadratic form. -/
def assignmentEnergy [OfNat ω 0] [OfNat ω 1] [OfNat ω 2] [Add ω] [Mul ω] [Div ω]
    (graph : Graph ω) (assignment : Assignment) : Except Fault ω := do
  let state ← graph.toState assignment
  return graph.quadraticForm (bits state)

end Graph

end Annealing
