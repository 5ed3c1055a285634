import Annealing.Text.Blank
import Annealing.Text.Digit
import Annealing.Text.Numeral

/-!
# Reading decimal numbers

A number is an optional sign and either a name (an infinity, or what is not a number, in any
letter case) or decimal digits with an optional point and an optional exponent.  The digits of
every script count, padding around the number is ignored, and a single low line may stand
between two digits.  The number that is read is the double nearest to the decimal.
-/

namespace Annealing.Decimal

open Annealing.Text

/-- One character of a number with other characters in it than ASCII: digits of every script
    become ASCII digits, wide white space becomes a space, and what else is not ASCII fits no
    number. -/
def toAscii (c : Char) : Char :=
  if c.val < 0x7f then c
  else if isWideBlank c then ' '
  else
    match decimalValue? c with
    | some d => Nat.digitChar d
    | none => '?'

/-- Leave out the low lines that stand between two digits; nothing if one stands elsewhere. -/
def dropLowLines (before : Char) : List Char → Option (List Char)
  | [] => if before = '_' then none else some []
  | c :: rest =>
    if c = '_' then if isDigit before then dropLowLines c rest else none
    else if before = '_' && !isDigit c then none
    else (dropLowLines c rest).map (c :: ·)

/-- An exponent of ten that fills the text: nothing, or a mark, an optional sign and digits. -/
def readExponent? : List Char → Option Int
  | [] => some 0
  | mark :: rest =>
    if mark = 'e' || mark = 'E' then
      let (negative, ds) := splitSign rest
      if ds.isEmpty || !ds.all isDigit then none
      else some (if negative then -(digitsValue ds : Int) else digitsValue ds)
    else none

/-- Digits with an optional point and exponent: the digits as one number, and the power of ten
    it is taken times. -/
def readDecimal? (cs : List Char) : Option (Nat × Int) :=
  let whole := cs.takeWhile isDigit
  let (fraction, rest) :=
    match cs.dropWhile isDigit with
    | '.' :: rest => (rest.takeWhile isDigit, rest.dropWhile isDigit)
    | rest => ([], rest)
  if whole.isEmpty && fraction.isEmpty then none
  else
    (readExponent? rest).map fun e =>
      (digitsValue (whole ++ fraction), e - fraction.length)

def ofDecimal (m : Nat) (e : Int) : Float :=
  if e < 0 then Float.ofScientific m true e.natAbs else Float.ofScientific m false e.natAbs

def readMagnitude? (cs : List Char) : Option Float :=
  let name := String.ofList (cs.map Char.toLower)
  if name = "inf" || name = "infinity" then some (1.0 / 0.0)
  else if name = "nan" then some (0.0 / 0.0)
  else (readDecimal? cs).map fun (m, e) => ofDecimal m e

/-- Read a number that fills the text but for padding. -/
def read? (s : String) : Option Float :=
  let cs := strip isPadding (s.toList.map toAscii)
  let (negative, body) := splitSign cs
  match dropLowLines ' ' body with
  | none => none
  | some body => (readMagnitude? body).map fun x => if negative then -x else x

end Annealing.Decimal
