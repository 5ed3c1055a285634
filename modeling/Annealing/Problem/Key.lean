import Annealing.Fault
import Annealing.Text.Blank
import Annealing.Text.Numeral

/-!
# Keys of the coefficient map

A key names the variable of a linear term, or the two variables of a coupling.  It is a text of
numerals with a comma between them, a tuple of numerals and integers, or a single integer.
`Key.read` reads all of them into a `Key`, and says which part of a key it cannot read.
-/

namespace Annealing

/-- The variables of a term, in the order in which its key names them. -/
inductive Key where
  | one (i : Int)
  | two (i j : Int)
deriving DecidableEq, Repr

namespace Key

def vars : Key → List Int
  | one i => [i]
  | two i j => [i, j]

/-- The parts of a key that is read; nothing for a value of another kind. -/
def tokens? : Value → Option (List Value)
  | .text s => some ((Text.splitAt ',' s.toList).map fun piece => .text (String.ofList piece))
  | .tuple items => some items
  | .int i => some [.int i]
  | _ => none

/-- Read one part of a key as a variable.  A text may be padded with white space. -/
def readToken (key : Value) : Value → Except Fault Int
  | .int i => .ok i
  | .text s =>
    match Text.readInteger (Text.strip Text.isBlank s.toList) with
    | .ok i => .ok i
    | .error .malformed => .error (.malformedKey key (.notInteger (.text s)))
    | .error .tooLong => .error .unusable
  | token => .error (.malformedKey key (.notInteger token))

/-- Read a key.  The parts are counted before any of them is read. -/
def read (key : Value) : Except Fault Key :=
  match tokens? key with
  | none => .error (.malformedKey key .unsupported)
  | some [a] => (readToken key a).map one
  | some [a, b] => do
    let i ← readToken key a
    let j ← readToken key b
    return two i j
  | some _ => .error (.malformedKey key .wrongCount)

end Key

end Annealing
