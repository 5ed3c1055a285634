import Annealing.Value.Order

/-!
# Temperatures

A temperature is supplied as any value, and cooling multiplies it by one.  A text, a list or a
tuple times an integer is repeated, and may get far longer than anything worth writing down.  A
temperature therefore holds what is repeated and the number of copies.

Whether a temperature is above a value shows at its beginning: `exceeds?` writes down no more
copies than it takes to be longer than that value.  `exceeds?_eq` says that this is enough.
-/

namespace Annealing

namespace Value

/-- Copies of a text, a list or a tuple, one after the other.  Other values stay as they are. -/
def copied (copies : Nat) : Value → Value
  | text s => text (String.ofList (List.replicate copies s.toList).flatten)
  | list items => list (List.replicate copies items).flatten
  | tuple items => tuple (List.replicate copies items).flatten
  | value => value

/-- The most items that can be counted. -/
def countLimit : Int := Nat.pow 2 63 - 1

/-- Addresses have 57 bits at most, and half of them are those of a program: nothing that takes
    this many bytes has room anywhere. -/
def addressLimit : Int := Nat.pow 2 56

/-- The bytes that an item of a list or a tuple takes, or a number of a table. -/
def itemRoom : Int := 8

end Value

/-- A temperature: a value, or copies of a text, a list or a tuple. -/
structure Temperature where
  value : Value
  copies : Nat

namespace Temperature

def ofValue (value : Value) : Temperature :=
  ⟨value, 1⟩

def toValue (temperature : Temperature) : Value :=
  temperature.value.copied temperature.copies

def exceeds? (temperature : Temperature) (bound : Value) : Except Fault Bool :=
  let enough := bound.length / temperature.value.length + 1
  bound.lt? (temperature.value.copied (min temperature.copies enough))

/-- A temperature repeated an integral number of times; a negative number counts as zero.  The
    result has to be countable, and its bytes have to have addresses. -/
def repeated (temperature : Temperature) (times : Value) : Except Fault Temperature := do
  match ← times.toNumber? with
  | .float _ => throw .wrongKind
  | .int i =>
    if i < -Value.countLimit - 1 || Value.countLimit < i then throw .overflow
    let count := temperature.value.length * temperature.copies * i
    let (uncountable, room) :=
      if temperature.value.isText then (Fault.overflow, count)
      else (Fault.exhausted, count * Value.itemRoom)
    if Value.countLimit < count then throw uncountable
    if Value.addressLimit ≤ room then throw .exhausted
    return ⟨temperature.value, temperature.copies * i.toNat⟩

/-- The product of a temperature and a value: that of two numbers, or a text, a list or a tuple
    repeated. -/
def mul? (temperature : Temperature) (factor : Value) : Except Fault Temperature := do
  let repeats (value : Value) := value.isText || value.isSequence
  if repeats temperature.value then temperature.repeated factor
  else if repeats factor then (ofValue factor).repeated temperature.value
  else
    let product ← (← temperature.value.toNumber?).mul (← factor.toNumber?)
    return ofValue product.toValue

/-! ## Enough copies -/

/-- Copies of some items begin with those that are enough to be longer than a bound, if there are
    any more at all. -/
theorem flatten_replicate_min {α : Type} (copies bound : Nat) (items : List α) :
    ∃ rest, (List.replicate copies items).flatten =
        (List.replicate (min copies (bound / items.length + 1)) items).flatten ++ rest ∧
      (rest = [] ∨
        bound < (List.replicate (min copies (bound / items.length + 1)) items).flatten.length) := by
  by_cases h : copies ≤ bound / items.length + 1
  · exact ⟨[], by simp [Nat.min_eq_left h], .inl rfl⟩
  · have enough : bound / items.length + 1 ≤ copies := by omega
    refine ⟨(List.replicate (copies - (bound / items.length + 1)) items).flatten, ?_, ?_⟩
    · rw [Nat.min_eq_right enough, ← List.flatten_append, List.replicate_append_replicate]
      congr 2
      omega
    · rw [Nat.min_eq_right enough]
      cases items with
      | nil => simp
      | cons x xs =>
        right
        simp only [List.length_flatten, List.map_replicate, List.sum_replicate_nat]
        rw [Nat.succ_mul]
        exact Nat.lt_div_mul_add (by simp)

/-- A temperature is above a value if that is less than the temperature with all its copies. -/
theorem exceeds?_eq (temperature : Temperature) (bound : Value) :
    temperature.exceeds? bound = bound.lt? temperature.toValue := by
  obtain ⟨value, copies⟩ := temperature
  have sequences (ys items : List Value) :
      Value.ltAll? ys
          (List.replicate (min copies (ys.length / items.length + 1)) items).flatten =
        Value.ltAll? ys (List.replicate copies items).flatten := by
    obtain ⟨rest, whole, short⟩ := flatten_replicate_min copies ys.length items
    rw [whole]
    rcases short with rfl | short
    · rw [List.append_nil]
    · exact (Value.ltAll?_append _ _ _ short).symm
  cases value <;> cases bound <;>
    simp only [exceeds?, toValue, Value.copied, Value.lt?, Value.length, Value.toNumber?,
      Value.number?]
  case text.text s t =>
    obtain ⟨rest, whole, short⟩ := flatten_replicate_min copies t.toList.length s.toList
    simp only [String.lt_iff, String.toList_ofList, ← String.length_toList, whole]
    rcases short with rfl | short
    · rw [List.append_nil]
    · simp only [Value.lt_append short]
  all_goals exact sequences _ _

end Temperature

end Annealing
