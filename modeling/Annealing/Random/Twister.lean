import Annealing.Random.Source

/-!
# The twister MT19937

The random source of an anneal: the generator MT19937 with its 624 words of state.  A unit number
takes 53 bits from two words; a place below `n` takes the low bits of a word and tries again
until they are below `n`.
-/

namespace Annealing

/-- A stream of MT19937: its words, and how many of them are used up. -/
structure Twister where
  words : Array UInt32
  used : Nat

namespace Twister

def degree : Nat := 624

def shift : Nat := 397

/-! ## Words -/

/-- The words that follow from a first one. -/
def fill (seed : UInt32) : Array UInt32 :=
  (List.range (degree - 1)).foldl
    (fun (words : Array UInt32) (i : Nat) =>
      let last := words.getD i 0
      words.push ((1812433253 : UInt32) * (last ^^^ (last >>> 30)) + UInt32.ofNat (i + 1)))
    #[seed]

def seeded (seed : UInt32) : Twister :=
  ⟨fill seed, degree⟩

/-- The new word at position `i`: the top bit of the old one and the low bits of the next,
    twisted onto the word `shift` positions on. -/
def twist (words : Array UInt32) (i : Nat) : Array UInt32 :=
  let mixed := (words.getD i 0 &&& 0x80000000) ||| (words.getD ((i + 1) % degree) 0 &&& 0x7fffffff)
  let matrix : UInt32 := if mixed &&& 1 = 0 then 0 else 0x9908b0df
  words.set! i (words.getD ((i + shift) % degree) 0 ^^^ (mixed >>> 1) ^^^ matrix)

/-- All words renewed, in order. -/
def renew (words : Array UInt32) : Array UInt32 :=
  (List.range degree).foldl twist words

def temper (word : UInt32) : UInt32 :=
  let word := word ^^^ (word >>> 11)
  let word := word ^^^ ((word <<< 7) &&& 0x9d2c5680)
  let word := word ^^^ ((word <<< 15) &&& 0xefc60000)
  word ^^^ (word >>> 18)

def next (stream : Twister) : UInt32 × Twister :=
  let stream := if stream.used < degree then stream else ⟨renew stream.words, 0⟩
  (temper (stream.words.getD stream.used 0), ⟨stream.words, stream.used + 1⟩)

/-! ## Numbers -/

/-- The numerator, over `2 ^ 53`, of a number from zero to one. -/
def fraction (stream : Twister) : Nat × Twister :=
  let (high, stream) := stream.next
  let (low, stream) := stream.next
  ((high >>> 5).toNat * 67108864 + (low >>> 6).toNat, stream)

/-- A number from zero to one, one excluded. -/
def unit (stream : Twister) : Float × Twister :=
  let (numerator, stream) := stream.fraction
  (Float.ofNat numerator / 9007199254740992.0, stream)

/-- A coin: heads if the number that is drawn is above one half. -/
def coin (stream : Twister) : Bool × Twister :=
  let (numerator, stream) := stream.fraction
  (4503599627370496 < numerator, stream)

/-- The least number of the form `2 ^ k - 1` that is not less than `n`. -/
def mask (n : Nat) : UInt32 :=
  UInt32.ofNat (if n = 0 then 0 else Nat.pow 2 (n.log2 + 1) - 1)

/-- Draw words until one is, under the mask, at most `bound`. -/
def placeUpTo (bound : Nat) (low : UInt32) : (fuel : Nat) → Twister → Nat × Twister
  | 0, stream => (0, stream)
  | fuel + 1, stream =>
    let (word, stream) := stream.next
    let value := (word &&& low).toNat
    if value ≤ bound then (value, stream) else placeUpTo bound low fuel stream

/-- More words than a search for a place ever takes: each fails with less than even chance. -/
def patience : Nat := Nat.pow 2 32

/-- A place below `n`.  If there is only one, nothing is drawn. -/
def place (n : Nat) (stream : Twister) : Nat × Twister :=
  if n ≤ 1 then (0, stream) else placeUpTo (n - 1) (mask (n - 1)) patience stream

theorem placeUpTo_le (bound : Nat) (low : UInt32) (fuel : Nat) (stream : Twister) :
    (placeUpTo bound low fuel stream).1 ≤ bound := by
  induction fuel generalizing stream with
  | zero => exact Nat.zero_le bound
  | succ fuel ih =>
    simp only [placeUpTo]
    split
    · assumption
    · exact ih _

theorem place_lt (n : Nat) (stream : Twister) (hn : 0 < n) : (place n stream).1 < n := by
  unfold place
  split
  · exact hn
  · exact Nat.lt_of_le_of_lt (placeUpTo_le _ _ _ _) (by omega)

def source : Source Twister Float where
  seeded := seeded
  coin := coin
  place := place
  unit := unit
  place_lt := place_lt

end Twister

end Annealing
