import Annealing.Decimal.Read
import Annealing.Params.Basic

/-!
# Reading parameters

Parameters are supplied as a map from names to values, or as ready parameters.  In a map either
name of a parameter may be used, and of several entries for one parameter the last counts.  A
parameter that is missing, or given as no value, takes its default; one whose value is no finite
number does too, with a warning.  An unknown name is ignored, with a warning.

In the end the domains are checked, of a map and of ready parameters alike.
-/

namespace Annealing

/-- Something that is overlooked, and said. -/
inductive Warning where
  -- A name that is not one of a parameter.
  | unknown (name : Value)
  -- A value that is no finite number.
  | unparsable (field : Field) (value : Value)

namespace Warning

def text : Warning → String
  | unknown name => "Unknown annealing parameter '" ++ name.display ++ "' ignored."
  | unparsable field value =>
    "Cannot parse " ++ field.name ++ "=" ++ value.render ++ ", using default " ++
      field.default.display ++ "."

/-- Does the warning go to the log, too? -/
def isLogged : Warning → Bool
  | unknown _ => false
  | unparsable .. => true

end Warning

inductive Supplied where
  -- Ready parameters.
  | params (params : Params)
  -- A map, or anything else.
  | value (value : Value)

structure Reading where
  -- The warnings, in the order in which they are given.
  warnings : List Warning
  result : Except Fault Params

namespace Value

/-- The value as a finite double.  A text is read as a decimal number. -/
def finite? (value : Value) : Option Float :=
  let x? :=
    match value with
    | text s => Decimal.read? s
    | value => value.number?.bind fun a => a.toFloat?.toOption
  x?.filter Float.isFinite

/-- The value without the fraction of its double. -/
def whole? (value : Value) : Option Int :=
  value.finite?.bind fun x => (Decimal.dyadic? x).map (·.truncate)

end Value

namespace Field

/-- What a parameter takes from a value, if it can: an integer for the sweeps, else a double. -/
def parse? : Field → Value → Option Value
  | sweepsPerTemperature, value => value.whole?.map .int
  | _, value => value.finite?.map .float

/-- The parameter that a key of a map sets. -/
def ofKey? : Value → Option Field
  | .text name => named? name
  | _ => none

end Field

namespace Params

/-- The value that a map gives to a parameter: that of its last entry.  No value counts as
    none. -/
def supplied? (entries : List (Value × Value)) (field : Field) : Option Value :=
  match entries.reverse.find? fun entry => Field.ofKey? entry.1 == some field with
  | some (_, .none) => none
  | some (_, value) => some value
  | none => none

def settle (field : Field) (value? : Option Value) : Value :=
  (value?.bind field.parse?).getD field.default

def complaint? (field : Field) (value? : Option Value) : Option Warning :=
  value?.bind fun value =>
    if (field.parse? value).isNone then some (.unparsable field value) else none

/-- Read the entries of a map. -/
def ofEntries (entries : List (Value × Value)) : Reading where
  warnings :=
    (entries.filter fun entry => (Field.ofKey? entry.1).isNone).map (.unknown ·.1) ++
      Field.all.filterMap fun field => complaint? field (supplied? entries field)
  result := (ofFields fun field => settle field (supplied? entries field)).validate

/-- Read supplied parameters.  Everything that counts as false is an empty map. -/
def read : Supplied → Reading
  | .params params => ⟨[], params.validate⟩
  | .value (.dict entries) => ofEntries entries
  | .value value => if value.isTruthy then ⟨[], .error .noEntries⟩ else ofEntries []

end Params

end Annealing
