import Annealing.Graph.Assignment

/-!
# Single flips

The energy of a state, the change of energy when one bit is flipped, and the trial that flips it
if the change is accepted.  A sweep is a list of trials.

Whether a change is accepted is left to a parameter, which may also fail; the weights may be of
any type that can be added and negated.
-/

namespace Annealing

/-- The place at a position.  A negative position counts from the end. -/
def placeAt (size : Nat) (position : Int) : Nat :=
  if position < 0 then (position + size).toNat else position.toNat

namespace State

/-- The byte of a node, zero outside of the state. -/
def bit (state : State) (i : Nat) : UInt8 :=
  state.getD i 0

/-- Flip one bit: what is not zero becomes zero. -/
def flip (state : State) (i : Nat) : State :=
  state.modify i fun b => if b = 0 then 1 else 0

end State

namespace Graph

variable {ω : Type} [OfNat ω 0] [Add ω]

/-! ## Energy -/

/-- The bias of a node plus the weights of its neighbours that are set. -/
def localField (graph : Graph ω) (state : State) (i : Nat) : ω :=
  (graph.neighbours i).foldl
    (fun field neighbour =>
      if state.bit neighbour.1 = 1 then field + neighbour.2 else field)
    (graph.linear.getD i 0)

/-- Add what node `i` brings to the energy: if it is set its bias, and the weight of each
    coupling whose greater end is set too. -/
def addNode (graph : Graph ω) (state : State) (energy : ω) (i : Nat) : ω :=
  if state.bit i = 1 then
    (graph.neighbours i).foldl
      (fun energy neighbour =>
        if i < neighbour.1 && state.bit neighbour.1 = 1 then energy + neighbour.2 else energy)
      (energy + graph.linear.getD i 0)
  else energy

/-- The energy of a state.  Each coupling is counted at its lesser end. -/
def energy (graph : Graph ω) (state : State) : ω :=
  (List.range state.size).foldl (graph.addNode state) 0

/-- The change of energy when a bit is flipped whose node has the given local field. -/
def deltaOf [Neg ω] (field : ω) (bit : UInt8) : ω :=
  if bit = 0 then field else -field

/-- The change of energy when the bit of a node is flipped. -/
def flipDelta [Neg ω] (graph : Graph ω) (state : State) (i : Nat) : ω :=
  deltaOf (graph.localField state i) (state.bit i)

/-! ## Trials -/

/-- Flip a bit if the change of energy is accepted.  The second part of the result is the change
    that took place. -/
def trial [Neg ω] {ε : Type} (graph : Graph ω) (accept : ω → Except ε Bool) (state : State)
    (i : Nat) : Except ε (State × ω) :=
  let delta := graph.flipDelta state i
  (accept delta).map fun accepted => if accepted then (state.flip i, delta) else (state, 0)

/-- The trial at a position that may count from the end.  In a state that is longer than the
    graph the end of the state is another place than that of the graph. -/
def trialAt [Neg ω] {ε : Type} (graph : Graph ω) (accept : ω → Except ε Bool) (state : State)
    (position : Int) : Except ε (State × ω) :=
  let i := placeAt state.size position
  let delta := deltaOf (graph.localField state (placeAt graph.size position)) (state.bit i)
  (accept delta).map fun accepted => if accepted then (state.flip i, delta) else (state, 0)

end Graph

structure Swept (ω ε : Type) where
  state : State
  -- The sum of the changes of energy.
  delta : ω
  -- How many draws were used.
  used : Nat
  -- Why it stopped before the last draw, if it did.  The failing draw counts as used.
  fault? : Option ε

/-- One trial after the other, up to the first that fails.  A draw is a node and what decides on
    its flip. -/
def Graph.sweep {ω ρ ε : Type} [OfNat ω 0] [Add ω] [Neg ω] (graph : Graph ω)
    (accept : ρ → ω → Except ε Bool) (state : State) (delta : ω) (used : Nat) :
    List (Nat × ρ) → Swept ω ε
  | [] => ⟨state, delta, used, none⟩
  | (i, r) :: draws =>
    match graph.trial (accept r) state i with
    | .error fault => ⟨state, delta, used + 1, some fault⟩
    | .ok (state, change) => graph.sweep accept state (delta + change) (used + 1) draws

end Annealing
