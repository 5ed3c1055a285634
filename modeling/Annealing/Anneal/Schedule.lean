/-!
# Cooling schedules

A schedule says at which temperature an anneal starts, whether a temperature is still hot, and
what one cooling step makes of it.  Temperatures may be of any type, and comparing or cooling
one may fail.

`countSteps` counts the cooling steps of a schedule by going through them; `stepBound` bounds
their number by a closed form.  A schedule may have no end, so everything that goes through it
takes a limit.
-/

namespace Annealing

structure Schedule (τ ε : Type) where
  initial : τ
  -- Does the temperature call for another cooling step?
  hot : τ → Except ε Bool
  -- The temperature after a cooling step.
  cool : τ → Except ε τ

/-- More cooling steps than a schedule over doubles makes before it ends: there are not as many
    positive doubles, and each step but the first leads from one to a lesser one. -/
def stepLimit : Nat := Nat.pow 2 63

namespace Schedule

variable {τ ε : Type}

/-- Count on from a temperature; nothing if the limit is reached. -/
def countFrom (schedule : Schedule τ ε) : (limit : Nat) → τ → Nat → Except ε (Option Nat)
  | 0, _, _ => .ok none
  | limit + 1, temperature, steps =>
    match schedule.hot temperature with
    | .error fault => .error fault
    | .ok false => .ok (some steps)
    | .ok true =>
      match schedule.cool temperature with
      | .error fault => .error fault
      | .ok cooler => schedule.countFrom limit cooler (steps + 1)

/-- The number of cooling steps of a schedule; nothing if there are more than the limit. -/
def countSteps (schedule : Schedule τ ε) (limit : Nat) : Except ε (Option Nat) :=
  schedule.countFrom limit schedule.initial 0

end Schedule

structure Logarithmic (τ ε : Type) where
  le : τ → τ → Except ε Bool
  div : τ → τ → Except ε τ
  log : τ → Except ε τ
  ceil : τ → Except ε Int

/-- An upper bound on the number of steps from `initial` down to `final` by a constant factor:
    the ceiling of `log (final / initial) / log factor` and one more, since repeated rounded
    products may end up just above `final`. -/
def Logarithmic.stepBound {τ ε : Type} (arithmetic : Logarithmic τ ε) (initial factor final : τ) :
    Except ε Int := do
  if ← arithmetic.le initial final then return 0
  let spread ← arithmetic.log (← arithmetic.div final initial)
  let pace ← arithmetic.log factor
  let steps ← arithmetic.ceil (← arithmetic.div spread pace)
  return steps + 1

end Annealing
