/-!
# Integer numerals

A variable is written as an optional sign and ASCII digits.  `readInteger` reads such a numeral
and refuses everything else, with one more limit: a numeral of more than `digitLimit` digits,
leading zeros included, is refused as too long rather than as malformed.
-/

namespace Annealing.Text

def isDigit (c : Char) : Bool :=
  0x30 ≤ c.val && c.val ≤ 0x39

def digitValue (c : Char) : Nat :=
  c.toNat - 0x30

/-- The value of a sequence of digits, most significant first. -/
def digitsValue (cs : List Char) : Nat :=
  cs.foldl (fun acc c => 10 * acc + digitValue c) 0

/-- The decimal digits of a natural number. -/
def digitsOf (n : Nat) : List Char :=
  Nat.toDigits 10 n

def integerText (i : Int) : String :=
  match i with
  | .ofNat n => String.ofList (digitsOf n)
  | .negSucc n => String.ofList ('-' :: digitsOf (n + 1))

/-- Split off a leading sign; the flag says whether it is a minus. -/
def splitSign : List Char → Bool × List Char
  | '-' :: rest => (true, rest)
  | '+' :: rest => (false, rest)
  | cs => (false, cs)

/-- The most digits a numeral may have, be it read or written. -/
def digitLimit : Nat := 4300

/-- Why a text is not read as an integer. -/
inductive NumeralFault where
  -- It is not an optional sign followed by one or more ASCII digits.
  | malformed
  -- It is, but has more digits than `digitLimit`.
  | tooLong
deriving DecidableEq, Repr

/-- Read a numeral that fills the whole text. -/
def readInteger (cs : List Char) : Except NumeralFault Int :=
  let (negative, digits) := splitSign cs
  if digits.isEmpty || !digits.all isDigit then .error .malformed
  else if digitLimit < digits.length then .error .tooLong
  else
    let magnitude : Int := digitsValue digits
    .ok (if negative then -magnitude else magnitude)

/-- The pieces between the occurrences of a separator; `n` separators make `n + 1` pieces. -/
def splitAt (separator : Char) : List Char → List (List Char)
  | [] => [[]]
  | c :: rest =>
    if c = separator then [] :: splitAt separator rest
    else
      match splitAt separator rest with
      | [] => [[c]]
      | piece :: pieces => (c :: piece) :: pieces

end Annealing.Text
