import Annealing.Fault
import Annealing.Value.Order

/-!
# Maps as pairs

A map is supplied as pairs of a key and a value.  Not every value can be a key, so pairs are
checked before they are taken as a map, and so is every map inside a value.
-/

namespace Annealing.Value

mutual

/-- Can the value be the key of a map?  Lists and maps cannot, nor tuples that hold one. -/
def isKey : Value → Bool
  | list _ => false
  | dict _ => false
  | tuple items => areKeys items
  | _ => true

def areKeys : List Value → Bool
  | [] => true
  | item :: rest => isKey item && areKeys rest

end

mutual

/-- Does every map inside the value have keys that can be keys? -/
def isSound : Value → Bool
  | list items => areSound items
  | tuple items => areSound items
  | dict entries => soundEntries entries
  | _ => true

def areSound : List Value → Bool
  | [] => true
  | item :: rest => isSound item && areSound rest

/-- Are the entries those of a map? -/
def soundEntries : List (Value × Value) → Bool
  | [] => true
  | (key, value) :: rest => isKey key && isSound key && isSound value && soundEntries rest

end

/-- The value, if every map inside it is one. -/
def checked (value : Value) : Except Fault Value :=
  if value.isSound then .ok value else .error .wrongKind

/-- Pairs as the entries of a map, if they can be. -/
def entriesOf (pairs : List (Value × Value)) : Except Fault (List (Value × Value)) :=
  if soundEntries pairs then .ok pairs else .error .wrongKind

/-- Put an entry into a map: in the place of the entry with the same key, or at the end. -/
def put (key value : Value) : List (Value × Value) → List (Value × Value)
  | [] => [(key, value)]
  | entry :: rest =>
    if entry.1.eq key then (key, value) :: rest else entry :: put key value rest

end Annealing.Value
