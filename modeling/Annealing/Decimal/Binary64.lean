/-!
# Doubles as exact numbers

A finite double is a sign, a natural significand and a power of two.  This module decodes a
`Float` into that form, compares it with an integer without rounding either of them, takes the
integer part and the ceiling, and rounds integers and quotients of integers to the nearest
double, a tie going to the even significand.
-/

namespace Annealing.Decimal

/-- An exact binary number: a sign, a significand and a power of two. -/
structure Dyadic where
  -- Is there a minus sign?  Zero may have one.
  negative : Bool
  significand : Nat
  exponent : Int
deriving DecidableEq, Repr

namespace Dyadic

/-- Numerator of the magnitude, over `denominator`. -/
def numerator (x : Dyadic) : Nat :=
  x.significand * Nat.pow 2 x.exponent.toNat

/-- Denominator of the magnitude; one of `numerator` and `denominator` carries the power of
    two. -/
def denominator (x : Dyadic) : Nat :=
  Nat.pow 2 (-x.exponent).toNat

def signed (x : Dyadic) : Int :=
  if x.negative then -(x.numerator : Int) else x.numerator

def truncate (x : Dyadic) : Int :=
  x.signed.tdiv x.denominator

/-- The least integer that is not smaller. -/
def ceiling (x : Dyadic) : Int :=
  -(-x.signed).fdiv x.denominator

end Dyadic

/-- The exact value of a finite double; nothing for infinities and for what is not a number. -/
def dyadic? (x : Float) : Option Dyadic :=
  match x.toModel.unpack with
  | .zero sign => some ⟨sign == .negative, 0, 0⟩
  | .finite sign significand exponent _ => some ⟨sign == .negative, significand, exponent⟩
  | .infinity _ => none
  | .notANumber => none

/-- Is an integer less than a double?  Both are taken exactly. -/
def intLtFloat (i : Int) (x : Float) : Bool :=
  match dyadic? x with
  | some d => i * d.denominator < d.signed
  | none => x.isInf && 0 < x

def floatLtInt (x : Float) (i : Int) : Bool :=
  match dyadic? x with
  | some d => d.signed < i * d.denominator
  | none => x.isInf && x < 0

def intEqFloat (i : Int) (x : Float) : Bool :=
  match dyadic? x with
  | some d => i * d.denominator = d.signed
  | none => false

/-- The double nearest to an integer, if it is finite. -/
def ofInt? (i : Int) : Option Float :=
  let x := Float.ofInt i
  if x.isFinite then some x else none

/-- The double nearest to a quotient of integers, infinite where it exceeds every double.  The
    divisor is taken to be nonzero. -/
def quotient (i j : Int) : Float :=
  let sign (k : Int) : Float.Model.UnpackedFloat.Sign := if k < 0 then .negative else .positive
  let exactly (k : Int) : Float.Model.UnpackedFloat :=
    if h : 0 < k.natAbs then .finite (sign k) k.natAbs 0 h else .zero .positive
  Float.ofModel (.pack (Float.Model.UnpackedFloat.div .binary64 (exactly i) (exactly j)))

end Annealing.Decimal
