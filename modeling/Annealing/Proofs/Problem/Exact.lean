import Annealing.Proofs.Problem.Terms
import Mathlib.Data.Rat.Defs

/-! # Weights as exact numbers

Results that need exact sums are stated for weights of any ring.  `Coefficients.readExact` is the
reading that they are about: a weight is read as a double, and the double is taken as the rational
number that it is.  It refuses what the reading of doubles refuses, with the same faults.
-/

namespace Annealing

/-- The rational number that a dyadic number stands for. -/
def Decimal.Dyadic.toRat (x : Decimal.Dyadic) : ℚ :=
  x.signed / x.denominator

/-- The rational number that a finite double is. -/
def Decimal.exact (x : Float) : ℚ :=
  (dyadic? x).elim 0 Dyadic.toRat

/-- Read the weight of a key as the rational number that its double is. -/
def Coefficients.readExact (key weight : Value) : Except Fault ℚ :=
  (readWeight key weight).map Decimal.exact

/-! ## An example

A map in mixed notations: a pair in both orders, a pair whose weights cancel, a variable paired
with itself, and one that is named alone. -/

def Coefficients.sample : Coefficients :=
  [(.text " +1,00", .float 0.5), (.tuple [.int 0, .text "1"], .float (-0.25)),
    (.text "5,5", .int 4), (.int 0, .float 1.5), (.text "-3,5", .int 1),
    (.tuple [.int 5, .int (-3)], .int (-1)), (.tuple [.int 0], .float 0.5), (.text "007", .int 1)]

def Graph.sample : Graph ℚ where
  vars := [-3, 0, 1, 5, 7]
  linear := #[0, 2, 0, 4, 1]
  offsets := #[0, 1, 2, 3, 4]
  counts := #[1, 1, 1, 1, 0]
  targets := #[3, 2, 1, 0]
  weights := #[0, 1 / 4, 1 / 4, 0]

theorem Graph.build_sample :
    Graph.build Coefficients.readExact Coefficients.sample = .ok Graph.sample :=
  Graph.build_eq_ok_iff.mpr ⟨_, rfl, by decide +kernel⟩

end Annealing
