import Annealing.Problem.Coefficients
import Annealing.Value.Grid

/-!
# Dense problems

A problem may be supplied as a square symmetric matrix: nested lists or tuples of numbers.
`Dense.coefficients` turns it into a coefficient map, with one linear term for every entry of the
diagonal, zero or not, and one coupling for every entry above it that is not zero.

Symmetry is checked up to a tolerance, and only the upper triangle is read.
-/

namespace Annealing.Dense

/-! ## Rows -/

/-- Cut a list into pieces of `n` items, `count` of them. -/
def pieces {α : Type} (n : Nat) : (count : Nat) → List α → List (List α)
  | 0, _ => []
  | count + 1, xs => xs.take n :: pieces n count (xs.drop n)

def cell {α : Type} (missing : α) (matrix : List (List α)) (i j : Nat) : α :=
  (matrix.getD i []).getD j missing

/-- All places of a square, row by row. -/
def places (n : Nat) : List (Nat × Nat) :=
  (List.range n).flatMap fun i => (List.range n).map fun j => (i, j)

/-! ## Symmetry -/

/-- Are two entries close, as seen from the second? -/
def close (a b : Float) : Bool :=
  if b.isFinite then (a - b).abs ≤ 1e-08 + 1e-05 * b.abs else a == b

def isSymmetric (matrix : List (List Float)) : Bool :=
  (places matrix.length).all fun (i, j) => close (cell 0 matrix i j) (cell 0 matrix j i)

/-- The difference of two entries that do not all fit into doubles; only whether it fails
    matters. -/
def compareLoose (a b : Value) : Except Fault Unit := do
  match ← a.toNumber?, ← b.toNumber? with
  | .int _, .int _ => return ()
  | x, y =>
    discard x.toFloat?
    discard y.toFloat?

/-- Why a square of loose values has no symmetry: the first entry that cannot be compared with
    its mirror image, or else an integer beyond every double, or else the kind of an entry. -/
def looseFault (matrix : List (List Value)) : Fault :=
  let fault? := do
    (places matrix.length).forM fun (i, j) =>
      compareLoose (cell .none matrix i j) (cell .none matrix j i)
    matrix.flatten.forM fun value => discard value.toFloat?
  match fault? with
  | .error fault => fault
  | .ok () => .wrongKind

/-- The rows of a supplied matrix, if it is square and symmetric. -/
def rows (problem : Value) : Except Fault (List (List Float)) := do
  let grid ← problem.grid?
  match grid.dims with
  | [] => throw .wrongKind
  | n :: dims =>
    if dims ≠ [n] then throw .notSquare
    match grid.content with
    | .texts => throw .notNumeric
    | .loose => throw (looseFault (pieces n n grid.cells))
    | .numbers xs =>
      let matrix := pieces n n xs
      if isSymmetric matrix then return matrix else throw .notSymmetric

/-! ## Coefficients -/

/-- The linear terms: one for each entry of the diagonal. -/
def diagonal (matrix : List (List Float)) : List (String × Float) :=
  (List.range matrix.length).map fun (i : Nat) => (Text.integerText i, cell 0 matrix i i)

/-- The couplings: one for each entry above the diagonal that is not zero, by rows. -/
def upperTriangle (matrix : List (List Float)) : List (String × Float) :=
  (List.range matrix.length).flatMap fun (i : Nat) =>
    ((List.range' (i + 1) (matrix.length - (i + 1))).filter fun j =>
      cell 0 matrix i j != 0).map
      fun (j : Nat) => (Text.integerText i ++ "," ++ Text.integerText j, cell 0 matrix i j)

/-- Can the indices of so many rows be written?  A numeral has the same limit of digits whether it
    is written or read. -/
def areWritable (count : Nat) : Bool :=
  (List.range count).all fun i => (Text.digitsOf i).length ≤ Text.digitLimit

/-- The coefficients of a supplied matrix, by key. -/
def coefficients (problem : Value) : Except Fault (List (String × Float)) := do
  let matrix ← rows problem
  if areWritable matrix.length then return diagonal matrix ++ upperTriangle matrix
  else throw .unusable

/-- The same coefficients as a coefficient map. -/
def toCoefficients (coefficients : List (String × Float)) : Coefficients :=
  coefficients.map fun (key, weight) => (.text key, .float weight)

end Annealing.Dense
