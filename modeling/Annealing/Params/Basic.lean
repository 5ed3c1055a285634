import Annealing.Fault
import Annealing.Value.Order

/-!
# Annealing parameters

The parameters of an anneal, their defaults, and their domains.  The temperatures have to be
positive, the cooling factor lies between zero and one, and there is at least one sweep; a
factor of one would never bring the temperature down.

Parameters are kept as they are supplied.  `Params.validate` compares them with the bounds of
their domains and changes nothing.  So an integer among them may be too long to be written, and
then the parameters have no text: `Params.display` fails.
-/

namespace Annealing

structure Params where
  initialTemperature : Value
  coolingFactor : Value
  finalTemperature : Value
  sweepsPerTemperature : Value

namespace Field

/-- The value of a parameter that is not set. -/
def default : Field → Value
  | initialTemperature => .float 10.0
  | coolingFactor => .float 0.995
  | finalTemperature => .float 0.01
  | sweepsPerTemperature => .int 20000

/-- Is a value in the domain of the parameter? -/
def admits : Field → Value → Except Fault Bool
  | initialTemperature, value => (Value.int 0).lt? value
  | finalTemperature, value => (Value.int 0).lt? value
  | coolingFactor, value => do
    if ← (Value.int 0).lt? value then value.lt? (.int 1) else return false
  | sweepsPerTemperature, value => return !(← value.lt? (.int 1))

/-- The parameters in the order in which their domains are checked. -/
def checked : List Field :=
  [initialTemperature, finalTemperature, coolingFactor, sweepsPerTemperature]

end Field

namespace Params

def get (params : Params) : Field → Value
  | .initialTemperature => params.initialTemperature
  | .coolingFactor => params.coolingFactor
  | .finalTemperature => params.finalTemperature
  | .sweepsPerTemperature => params.sweepsPerTemperature

def ofFields (value : Field → Value) : Params :=
  ⟨value .initialTemperature, value .coolingFactor, value .finalTemperature,
    value .sweepsPerTemperature⟩

def toList (params : Params) : List Value :=
  Field.all.map params.get

/-- Fail if a parameter is out of its domain. -/
def check (params : Params) (field : Field) : Except Fault Unit := do
  if ← field.admits (params.get field) then return ()
  else throw (.outOfDomain field (params.get field))

/-- The parameters, if each is in its domain. -/
def validate (params : Params) : Except Fault Params := do
  Field.checked.forM params.check
  return params

/-- Can all of the parameters be written as text? -/
def isWritable (params : Params) : Bool :=
  Value.areWritable params.toList

/-- The parameters as text, if they have one. -/
def display (params : Params) : Except Fault String :=
  if params.isWritable then
    .ok ("AnnealingParams(" ++
      ", ".intercalate (Field.all.map fun field =>
        field.name ++ "=" ++ (params.get field).render) ++ ")")
  else .error .unusable

@[simp] theorem get_ofFields (value : Field → Value) (field : Field) :
    (ofFields value).get field = value field := by
  cases field <;> rfl

end Params

end Annealing
