import Annealing.Decimal.Binary64

/-!
# Decimal digits of a double

Two ways to choose the digits of a positive double `m * 2 ^ q`, both in exact arithmetic.

* `shortest` takes the fewest digits that read back as the same double and, among those, the
  nearest to its exact value.
* `rounded` takes a given number of significant digits, a tie going to the even last digit.

A result `(n, i)` stands for `n * 10 ^ i`.  Both search powers of ten from above: the points of
`10 ^ i` that matter are the two around the exact value.
-/

namespace Annealing.Decimal

/-- The greatest integer `n` with `n * 10 ^ i * den ≤ num`, and whether there is a remainder to
    speak of: the quotient and the remainder of `num / den` by `10 ^ i`, with its divisor. -/
def gridPoint (num den : Nat) (i : Int) : Nat × Nat × Nat :=
  let num := num * Nat.pow 10 (-i).toNat
  let den := den * Nat.pow 10 i.toNat
  (num / den, num % den, den)

/-- An upper bound of the decimal exponent of `m * 2 ^ q`. -/
def exponentBound (m : Nat) (q : Int) : Int :=
  ((m.log2 : Int) + q) * 1233 / 4096 + 2

/-- The doubles next to `m * 2 ^ q` are this far: the points that are read as it lie between
    `(4 * m - below) / 4` and `(4 * m + 2) / 4` times `2 ^ q`.  The gap below a power of two is
    half as wide. -/
def quarterGapBelow (m : Nat) (q : Int) : Nat :=
  if m = Nat.pow 2 52 && -1074 < q then 1 else 2

/-- Does `n * 10 ^ i` read back as `m * 2 ^ q`?  The ends of the interval do if the significand
    is even. -/
def readsBack (m : Nat) (q : Int) (n : Nat) (i : Int) : Bool :=
  -- everything times four, over a common denominator
  let point := 4 * n * Nat.pow 10 i.toNat * Nat.pow 2 (-q).toNat
  let unit := Nat.pow 2 q.toNat * Nat.pow 10 (-i).toNat
  let low := (4 * m - quarterGapBelow m q) * unit
  let high := (4 * m + 2) * unit
  if m % 2 = 0 then low ≤ point && point ≤ high else low < point && point < high

/-- The point of the grid `10 ^ i` that is written for `m * 2 ^ q`, if one reads back.  Of two,
    the nearer is taken, and the even one if they are equally near. -/
def onGrid? (m : Nat) (q : Int) (i : Int) : Option Nat :=
  let (n, rest, den) := gridPoint (m * Nat.pow 2 q.toNat) (Nat.pow 2 (-q).toNat) i
  match n ≠ 0 && readsBack m q n i, readsBack m q (n + 1) i with
  | false, false => none
  | true, false => some n
  | false, true => some (n + 1)
  | true, true =>
    if 2 * rest < den || (2 * rest = den && n % 2 = 0) then some n else some (n + 1)

/-- The first grid below `i` that has a point to write. -/
def scan (m : Nat) (q : Int) : (fuel : Nat) → (i : Int) → Nat × Int
  | 0, i => (gridPoint (m * Nat.pow 2 q.toNat) (Nat.pow 2 (-q).toNat) i |>.1, i)
  | fuel + 1, i =>
    match onGrid? m q i with
    | some n => (n, i)
    | none => scan m q fuel (i - 1)

/-- The shortest digits of `m * 2 ^ q`.  Seventeen digits always suffice, so the search ends
    within the fuel. -/
def shortest (m : Nat) (q : Int) : Nat × Int :=
  scan m q 24 (exponentBound m q)

def width (n : Nat) : Nat :=
  (Nat.toDigits 10 n).length

/-- The decimal exponent of the leading digit of `m * 2 ^ q`: the greatest `i` at most the bound
    for which `10 ^ i` does not exceed it. -/
def leadingExponent (m : Nat) (q : Int) : (fuel : Nat) → (i : Int) → Int
  | 0, i => i
  | fuel + 1, i =>
    if (gridPoint (m * Nat.pow 2 q.toNat) (Nat.pow 2 (-q).toNat) i).1 = 0 then
      leadingExponent m q fuel (i - 1)
    else i

/-- The nearest number with `places` significant digits.  It has one digit more where rounding
    carries into a new one; that digit is a zero. -/
def rounded (places : Nat) (m : Nat) (q : Int) : Nat × Int :=
  let i := leadingExponent m q 8 (exponentBound m q) - ((places : Int) - 1)
  let (n, rest, den) := gridPoint (m * Nat.pow 2 q.toNat) (Nat.pow 2 (-q).toNat) i
  if 2 * rest < den || (2 * rest = den && n % 2 = 0) then (n, i) else (n + 1, i)

end Annealing.Decimal
