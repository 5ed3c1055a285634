import Annealing.Value.Arithmetic

/-!
# Grids

Lists and tuples that are nested evenly make a grid: the same number of items at every place of
the same depth.  A grid of numbers is computed with cell by cell, in doubles.  That takes cells
that are numbers, the integers among them of 64 bits at most; texts make the grid one of texts,
and any other value, one of loose values.

Two grids are combined cell by cell after they have been stretched to dimensions that suit both.
-/

namespace Annealing

/-- A grid: the number of items in each dimension, and the cells row by row. -/
structure Grid (α : Type) where
  dims : List Nat
  cells : List α

inductive Grid.Content where
  | numbers (xs : List Float)
  -- Texts, perhaps with numbers among them.
  | texts
  -- Something else than texts and numbers of machine size.
  | loose

namespace Value

mutual

/-- How many items the value has in each dimension, if that is the same everywhere. -/
def dims? : Value → Option (List Nat)
  | list items => dimsOf? items
  | tuple items => dimsOf? items
  | _ => some []

/-- The dimensions of a value with these items. -/
def dimsOf? : List Value → Option (List Nat)
  | [] => some [0]
  | [item] => (dims? item).map (1 :: ·)
  | item :: rest =>
    match dims? item, dimsOf? rest with
    | some inner, some (count :: outer) =>
      if outer = inner then some ((count + 1) :: outer) else Option.none
    | _, _ => Option.none

end

mutual

/-- What is inside all lists and tuples, in order. -/
def cells : Value → List Value
  | list items => cellsOf items
  | tuple items => cellsOf items
  | value => [value]

/-- What is inside all lists and tuples of a sequence of values. -/
def cellsOf : List Value → List Value
  | [] => []
  | item :: rest => cells item ++ cellsOf rest

end

/-- The most dimensions that a grid can have. -/
def dimensionLimit : Nat := 64

/-- The value as a grid; a single value has no dimensions at all. -/
def grid? (value : Value) : Except Fault (Grid Value) :=
  match value.dims? with
  | some dims =>
    if dims.length ≤ dimensionLimit then .ok ⟨dims, value.cells⟩ else .error .unusable
  | Option.none => .error .unusable

/-- The value as a double, if it is a double, a truth value or an integer that fits into 64 bits,
    with or without a sign. -/
def machineNumber? : Value → Option Float
  | bool b => some (if b then 1 else 0)
  | int i =>
    if -9223372036854775808 ≤ i && i < 18446744073709551616 then some (Float.ofInt i)
    else Option.none
  | float x => some x
  | _ => Option.none

end Value

namespace Grid

def content (grid : Grid Value) : Content :=
  if grid.cells.any fun cell => !cell.isText && cell.machineNumber?.isNone then .loose
  else if grid.cells.any Value.isText then .texts
  else .numbers (grid.cells.filterMap Value.machineNumber?)

/-- The dimensions that two grids are stretched to, all of them given last one first.  A dimension
    that only one of the grids has is kept; where both have it, they agree or one of them has a
    single item there, which is repeated. -/
def stretched? : List Nat → List Nat → Option (List Nat)
  | [], dims => some dims
  | dims, [] => some dims
  | m :: ms, n :: ns =>
    (stretched? ms ns).bind fun rest =>
      if m = n || n = 1 then some (m :: rest)
      else if m = 1 then some (n :: rest)
      else none

/-- Do the grids have cells to combine?  It is a fault if they cannot be stretched to the same
    dimensions. -/
def combines {α β : Type} (a : Grid α) (b : Grid β) : Except Fault Bool :=
  match stretched? a.dims.reverse b.dims.reverse with
  | some dims => .ok (!dims.contains 0)
  | none => .error .unusable

end Grid

end Annealing
