import Annealing.Value.Basic
import Annealing.Decimal.Layout
import Annealing.Text.Quoted

/-!
# Values as text

`Value.render` writes a value so that its kind can be seen: texts are quoted, a tuple of one item
keeps its comma, and a double always shows a fraction or an exponent.  `Value.display` differs
only for a text, which it shows as it is.

An integer of too many digits has no text at all, and neither has a value that holds one:
`Value.isWritable` tells them apart.  `Value.render` itself gives a text for every value.
-/

namespace Annealing.Value

/-- Pieces with a separator between them. -/
def joined (pieces : List String) : String :=
  ", ".intercalate pieces

mutual

def render : Value → String
  | none => "None"
  | bool b => if b then "True" else "False"
  | int i => Text.integerText i
  | float x => Decimal.full.write x
  | text s => Text.quoted s
  | list items => "[" ++ joined (renderAll items) ++ "]"
  | tuple [item] => "(" ++ render item ++ ",)"
  | tuple items => "(" ++ joined (renderAll items) ++ ")"
  | dict entries => "\x7b" ++ joined (renderEntries entries) ++ "\x7d"

def renderAll : List Value → List String
  | [] => []
  | item :: rest => render item :: renderAll rest

/-- Every entry on its own, key first. -/
def renderEntries : List (Value × Value) → List String
  | [] => []
  | (key, value) :: rest => (render key ++ ": " ++ render value) :: renderEntries rest

end

mutual

/-- Is there no integer in the value that has more digits than can be written? -/
def isWritable : Value → Bool
  | int i => i.natAbs < Nat.pow 10 Text.digitLimit
  | list items => areWritable items
  | tuple items => areWritable items
  | dict entries => writableEntries entries
  | _ => true

def areWritable : List Value → Bool
  | [] => true
  | item :: rest => isWritable item && areWritable rest

def writableEntries : List (Value × Value) → Bool
  | [] => true
  | (key, value) :: rest => isWritable key && isWritable value && writableEntries rest

end

/-- The value as it stands inside a sentence. -/
def display : Value → String
  | text s => s
  | value => value.render

end Annealing.Value
