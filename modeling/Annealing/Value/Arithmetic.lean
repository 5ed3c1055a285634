import Annealing.Decimal.Binary64
import Annealing.Fault

/-!
# Arithmetic of supplied values

Parameters are computed with as they were supplied: integers exactly, doubles by rounding, and
an integer that meets a double is rounded to one first, which fails beyond every double.
Comparisons never round.  A truth value counts as the integer zero or one.
-/

namespace Annealing

/-- A value that can be computed with. -/
inductive Number where
  | int (i : Int)
  | float (x : Float)

namespace Number

def toFloat? : Number → Except Fault Float
  | int i =>
    match Decimal.ofInt? i with
    | some x => .ok x
    | none => .error .overflow
  | float x => .ok x

def toValue : Number → Value
  | int i => .int i
  | float x => .float x

/-- The first number is less than the second.  What is not a number is less than nothing. -/
def lt : Number → Number → Bool
  | int i, int j => i < j
  | int i, float y => Decimal.intLtFloat i y
  | float x, int j => Decimal.floatLtInt x j
  | float x, float y => x < y

def eq : Number → Number → Bool
  | int i, int j => i = j
  | int i, float y => Decimal.intEqFloat i y
  | float x, int j => Decimal.intEqFloat j x
  | float x, float y => x == y

/-- The product; exact for integers. -/
def mul : Number → Number → Except Fault Number
  | int i, int j => .ok (int (i * j))
  | a, b => do
    let x ← a.toFloat?
    let y ← b.toFloat?
    return float (x * y)

/-- The quotient, always a double: that of two integers is rounded once. -/
def div : Number → Number → Except Fault Float
  | int i, int j =>
    if j = 0 then .error .divisionByZero
    else
      let x := Decimal.quotient i j
      if x.isFinite then .ok x else .error .overflow
  | a, b => do
    let x ← a.toFloat?
    let y ← b.toFloat?
    if y == 0 then .error .divisionByZero else return x / y

end Number

namespace Value

/-- The value as a number, if it is one. -/
def number? : Value → Option Number
  | bool b => some (.int (if b then 1 else 0))
  | int i => some (.int i)
  | float x => some (.float x)
  | _ => Option.none

/-- The value as a number; every other kind is a fault. -/
def toNumber? (value : Value) : Except Fault Number :=
  match value.number? with
  | some a => .ok a
  | Option.none => .error .wrongKind

def toFloat? (value : Value) : Except Fault Float := do
  (← value.toNumber?).toFloat?

def div? (a b : Value) : Except Fault Float := do
  (← a.toNumber?).div (← b.toNumber?)

end Value

end Annealing
