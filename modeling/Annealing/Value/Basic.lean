/-!
# Supplied values

Coefficients, parameters and assignments come from outside, as values whose kind is not known
beforehand.  `Value` is such a value.
-/

namespace Annealing

inductive Value where
  -- No value.
  | none
  | bool (b : Bool)
  | int (i : Int)
  | float (x : Float)
  | text (s : String)
  | list (items : List Value)
  | tuple (items : List Value)
  -- Pairs of a key and a value, in the order of insertion.
  | dict (entries : List (Value × Value))

namespace Value

instance : Inhabited Value := ⟨none⟩

/-- Does the value count as true?  Nothing, zero and everything empty do not; what is not a
    number does. -/
def isTruthy : Value → Bool
  | none => false
  | bool b => b
  | int i => i != 0
  | float x => x != 0
  | text s => s.length != 0
  | list items => !items.isEmpty
  | tuple items => !items.isEmpty
  | dict entries => !entries.isEmpty

def isText : Value → Bool
  | text _ => true
  | _ => false

def isSequence : Value → Bool
  | list _ => true
  | tuple _ => true
  | _ => false

/-- The number of characters of a text, or of items of a list or a tuple. -/
def length : Value → Nat
  | text s => s.length
  | list items => items.length
  | tuple items => items.length
  | _ => 0

end Value

end Annealing
