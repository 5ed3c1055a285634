import Annealing.Graph.Basic

/-!
# Assignments and states

An assignment gives values to variables; a state gives one bit to each node of a graph.  The
module finds the node of a variable and turns each of the two into the other.

A variable to look up is a supplied value.  Every number that equals a variable finds it, and
what is not a number cannot even be compared with one.
-/

namespace Annealing

/-- One byte per node; only zero and one occur in a state that is drawn or annealed. -/
abbrev State := Array UInt8

/-- Values by variable, in the order in which they are given. -/
abbrev Assignment := List (Value × Value)

namespace Graph

variable {ω : Type}

/-- The rank of a number among ascending variables: how many of them are less. -/
def rank (a : Number) (vars : List Int) : Nat :=
  (vars.takeWhile fun i => (Number.int i).lt a).length

def nodeOf (graph : Graph ω) (sought : Value) : Except Fault Nat :=
  match sought.number? with
  | none => .error (if graph.vars.isEmpty then .missing sought else .wrongKind)
  | some a =>
    let i := rank a graph.vars
    match graph.vars[i]? with
    | some found => if (Number.int found).eq a then .ok i else .error (.missing sought)
    | none => .error (.missing sought)

/-- The values of the nodes by variable.  A surplus of variables or of values is left out. -/
def toAssignment {α : Type} (graph : Graph ω) (values : List α) : List (Int × α) :=
  graph.vars.zip values

def assign (graph : Graph ω) (state : State) (entry : Value × Value) : Except Fault State := do
  let i ← graph.nodeOf entry.1
  return state.set! i (if entry.2.isTruthy then 1 else 0)

/-- The state of an assignment.  Variables it leaves out are zero; the first variable that is
    not in the graph is the fault. -/
def toState (graph : Graph ω) (assignment : Assignment) : Except Fault State :=
  assignment.foldlM graph.assign (Array.replicate graph.size 0)

end Graph

end Annealing
