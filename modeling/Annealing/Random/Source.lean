import Annealing.Graph.Assignment

/-!
# Sources of random draws

What an anneal needs of a random source, and the draws it makes from one.  A source is given by
the functions that advance its stream; that a drawn place lies in range is part of it.

Main definitions:

* `Source.seeded?` starts the stream of a supplied seed;
* `Source.bits` draws a state, one coin per node;
* `Source.draws` draws the trials of a sweep, for each a node and then a number for the decision.
  How much of the stream is used depends on the number of nodes and of trials alone.
-/

namespace Annealing

/-- A source of random draws with streams of type `σ` and deciding numbers of type `ρ`. -/
structure Source (σ ρ : Type) where
  -- The start of the stream of a seed.
  seeded : UInt32 → σ
  -- One bit.
  coin : σ → Bool × σ
  -- A number below a positive bound.
  place : Nat → σ → Nat × σ
  -- A number that decides on a flip.
  unit : σ → ρ × σ
  place_lt : ∀ (n : Nat) (stream : σ), 0 < n → (place n stream).1 < n

namespace Source

variable {σ ρ : Type}

/-- Draw a state of `n` bits after the bits that are already drawn. -/
def bitsAfter (source : Source σ ρ) : (n : Nat) → State → σ → State × σ
  | 0, state, stream => (state, stream)
  | n + 1, state, stream =>
    let (coin, stream) := source.coin stream
    source.bitsAfter n (state.push (if coin then 1 else 0)) stream

def bits (source : Source σ ρ) (n : Nat) (stream : σ) : State × σ :=
  source.bitsAfter n #[] stream

/-- Draw a state of a supplied number of bits, which cannot be negative. -/
def bits? (source : Source σ ρ) (n : Int) (stream : σ) : Except Fault (State × σ) :=
  if 0 ≤ n then .ok (source.bits n.toNat stream) else .error .unusable

/-- The start of the stream of a supplied seed, which has to fit into 32 bits. -/
def seeded? (source : Source σ ρ) (seed : Int) : Except Fault σ :=
  if 0 ≤ seed && seed < Nat.pow 2 32 then .ok (source.seeded (UInt32.ofNat seed.toNat))
  else .error .unusable

/-- The stream to start from: that of a seed, or else the one that is there. -/
def streamFor (source : Source σ ρ) (seed? : Option Int) (stream : σ) : Except Fault σ :=
  match seed? with
  | some seed => source.seeded? seed
  | none => .ok stream

/-- Draw one trial among `n` nodes: the node first. -/
def draw (source : Source σ ρ) (n : Nat) (stream : σ) : (Nat × ρ) × σ :=
  let (i, stream) := source.place n stream
  let (r, stream) := source.unit stream
  ((i, r), stream)

/-- Draw some trials, after those that are already drawn; these are in reverse order. -/
def drawsAfter (source : Source σ ρ) (n : Nat) :
    (trials : Nat) → List (Nat × ρ) → σ → List (Nat × ρ) × σ
  | 0, drawn, stream => (drawn.reverse, stream)
  | trials + 1, drawn, stream =>
    let (trial, stream) := source.draw n stream
    source.drawsAfter n trials (trial :: drawn) stream

/-- Draw the trials of a sweep over `n` nodes. -/
def draws (source : Source σ ρ) (n trials : Nat) (stream : σ) : List (Nat × ρ) × σ :=
  source.drawsAfter n trials [] stream

end Source

end Annealing
