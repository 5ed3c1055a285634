import Annealing.Params.Field
import Annealing.Value.Printer

/-!
# Faults

Everything that can go wrong, by cause.  A fault of the problem or of its settings has a message
of its own; a fault of the arithmetic, or of a value of the wrong kind, has none.

The kinds of faults are nested: a malformed key, a setting out of its domain and a cancelled run
are all problems, and a problem is an unusable value.
-/

namespace Annealing

/-- Why a key does not name one or two variables. -/
inductive KeyReason where
  -- It is neither a text, nor a tuple, nor an integer.
  | unsupported
  -- It has no part at all, or more than two.
  | wrongCount
  -- One of its parts is not an integer.
  | notInteger (token : Value)
  -- A reason in the words of whoever found the fault; an empty one says nothing.
  | stated (reason : Value)

inductive Fault where
  -- A key of the coefficient map cannot be read.
  | malformedKey (key : Value) (reason : KeyReason)
  -- A weight is not a real number.
  | notReal (key weight : Value)
  -- A weight is infinite, or not a number.
  | notFinite (key : Value) (weight : Float)
  -- A dense problem does not have as many columns as rows.
  | notSquare
  -- A dense problem differs from its transpose.
  | notSymmetric
  -- A parameter is out of its domain.
  | outOfDomain (field : Field) (value : Value)
  -- A run was stopped after this many cooling steps.
  | cancelled (steps : Nat)
  -- Something is looked up that is not there.
  | missing (key : Value)
  -- An operation is applied to a value of the wrong kind.
  | wrongKind
  -- A text is compared with a number that was computed.
  | incomparable
  -- Texts stand where numbers are computed with.
  | notNumeric
  -- A value is of the right kind, but the operation is not defined for it.
  | unusable
  -- A number is beyond every double.
  | overflow
  -- A number is divided by zero.
  | divisionByZero
  -- More room is needed than there is.
  | exhausted
  -- Parameters are given as something that has no entries.
  | noEntries
  -- The caller's own callback failed.
  | callbackFailed

/-- Kinds of faults, as far as a caller tells them apart. -/
inductive Kind where
  | malformedKey
  | setting
  | cancelled
  | problem
  | unusable
  | wrongKind
  | incomparable
  | notNumeric
  | overflow
  | divisionByZero
  | exhausted
  | missing
  | noEntries
  | callbackFailed
deriving DecidableEq, Repr

namespace Kind

/-- The kind and all wider kinds, from narrow to wide. -/
def lineage : Kind → List Kind
  | malformedKey => [malformedKey, problem, unusable]
  | setting => [setting, problem, unusable]
  | cancelled => [cancelled, problem, unusable]
  | problem => [problem, unusable]
  | kind => [kind]

end Kind

namespace KeyReason

def text? : KeyReason → Option String
  | unsupported => some "unsupported key type"
  | wrongCount => some "expected one or two variables"
  | notInteger token => some (token.render ++ " is not an integer")
  | stated reason => if reason.isTruthy then some reason.display else none

end KeyReason

namespace Fault

def kind : Fault → Kind
  | malformedKey .. => .malformedKey
  | notReal .. | notFinite .. | notSquare | notSymmetric => .problem
  | outOfDomain .. => .setting
  | cancelled _ => .cancelled
  | missing _ => .missing
  | wrongKind => .wrongKind
  | incomparable => .incomparable
  | notNumeric => .notNumeric
  | unusable => .unusable
  | overflow => .overflow
  | divisionByZero => .divisionByZero
  | exhausted => .exhausted
  | noEntries => .noEntries
  | callbackFailed => .callbackFailed

/-- What is said of a parameter out of its domain. -/
def domainText : Field → String
  | .coolingFactor => "must be in (0, 1)"
  | _ => "must be positive"

def message? : Fault → Option String
  | malformedKey key reason =>
    let head := "Cannot parse coefficient key " ++ key.render
    match reason.text? with
    | some text => some (head ++ ": " ++ text)
    | none => some head
  | notReal key weight =>
    some ("Weight of " ++ key.render ++ " must be a real number, got " ++ weight.render ++ ".")
  | notFinite key weight =>
    some ("Weight of " ++ key.render ++ " must be finite, got " ++
      (Value.float weight).render ++ ".")
  | notSquare => some "Problem must be a square matrix."
  | notSymmetric => some "Problem must be a symmetric matrix."
  | outOfDomain field value =>
    some (field.name ++ " " ++ domainText field ++ ", got " ++ value.display ++ ".")
  | cancelled steps => some ("Annealing stopped after " ++ Text.integerText steps ++ " steps.")
  | missing key => some key.render
  | _ => none

end Fault

end Annealing
