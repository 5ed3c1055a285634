import Annealing.Decimal.Shortest
import Annealing.Text.Numeral

/-!
# The layout of decimal numbers

A number is written positionally or with an exponent, by its decimal exponent.  A `Layout` holds
the choices of one format; `full` writes every digit that is needed to read a double back, and
`brief` writes six significant digits for the log.
-/

namespace Annealing.Decimal

/-- The choices that turn digits into text. -/
structure Layout where
  -- The least decimal exponent that is written positionally.
  leastPositional : Int
  -- The least decimal exponent that is written as such again.
  leastScientific : Int
  -- What follows a positional number without a fraction.
  wholeSuffix : String
  -- The digits of a positive double.
  digits : Nat → Int → Nat × Int

/-- As many digits as a reader needs; a whole number shows a zero fraction. -/
def full : Layout where
  leastPositional := -4
  leastScientific := 16
  wholeSuffix := ".0"
  digits := shortest

/-- Six significant digits, trailing zeros left out. -/
def brief : Layout where
  leastPositional := -4
  leastScientific := 6
  wholeSuffix := ""
  digits := rounded 6

/-- Leave out the zeros at the end, but never the first digit. -/
def trimZeros (ds : List Char) : List Char :=
  match ds with
  | [] => []
  | d :: rest => d :: (rest.reverse.dropWhile (· = '0')).reverse

/-- An exponent: its sign and at least two digits. -/
def exponentText (e : Int) : String :=
  let ds := Text.digitsOf e.natAbs
  (if e < 0 then "e-" else "e+") ++ String.ofList (if ds.length < 2 then '0' :: ds else ds)

/-- The number with the given significant digits whose first one has decimal exponent `e`. -/
def Layout.arrange (layout : Layout) (ds : List Char) (e : Int) : String :=
  if layout.leastPositional ≤ e && e < layout.leastScientific then
    if e < 0 then
      "0." ++ String.ofList (List.replicate ((-e).toNat - 1) '0' ++ ds)
    else
      let whole := e.toNat + 1
      if ds.length ≤ whole then
        String.ofList (ds ++ List.replicate (whole - ds.length) '0') ++ layout.wholeSuffix
      else String.ofList (ds.take whole) ++ "." ++ String.ofList (ds.drop whole)
  else
    match ds with
    | [] => exponentText e
    | [d] => String.ofList [d] ++ exponentText e
    | d :: rest => String.ofList [d] ++ "." ++ String.ofList rest ++ exponentText e

def Layout.write (layout : Layout) (x : Float) : String :=
  match dyadic? x with
  | none => if x.isNaN then "nan" else if x < 0 then "-inf" else "inf"
  | some d =>
    let body :=
      if d.significand = 0 then "0" ++ layout.wholeSuffix
      else
        let (n, i) := layout.digits d.significand d.exponent
        let ds := Text.digitsOf n
        layout.arrange (trimZeros ds) (i + ds.length - 1)
    if d.negative then "-" ++ body else body

end Annealing.Decimal
