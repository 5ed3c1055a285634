import Annealing.Problem.Key
import Mathlib.Data.List.Basic

/-! # Variables in writing

The key of a term may be a text: the numeral of a variable, or two numerals with a comma between
them.  Such a text is read back as the variables that it was written for, unless a numeral has more
digits than can be read.

* `readInteger_integerText` — the numeral of an integer.
* `splitAt_append` — a text is split where its pieces were joined.
* `Key.read_one`, `Key.read_two` — the keys of both kinds.
-/

namespace Annealing

namespace Text

/-! ## Digits -/

/-- The integer has no more digits than a numeral may have. -/
def Writable (i : Int) : Prop :=
  (digitsOf i.natAbs).length ≤ digitLimit

theorem isDigit_of_mem_digitsOf {n : Nat} {c : Char} (hmem : c ∈ digitsOf n) :
    isDigit c = true := by
  have hdigit := Nat.isDigit_of_mem_toDigits (by omega) (by omega) hmem
  simpa [isDigit, Char.isDigit] using hdigit

theorem digitsOf_ne_nil (n : Nat) : digitsOf n ≠ [] :=
  Nat.toDigits_ne_nil

@[simp] theorem digitsValue_digitsOf (n : Nat) : digitsValue (digitsOf n) = n :=
  Nat.ofDigitChars_ten_toDigits

/-- A digit is none of the characters that a numeral is read by. -/
theorem ne_of_isDigit {c : Char} (hdigit : isDigit c = true) : c ≠ '-' ∧ c ≠ '+' ∧ c ≠ ',' := by
  refine ⟨?_, ?_, ?_⟩ <;>
  · rintro rfl
    exact absurd hdigit (by decide)

theorem splitSign_of_isDigit {cs : List Char} (hdigits : ∀ c ∈ cs, isDigit c = true) :
    splitSign cs = (false, cs) := by
  unfold splitSign
  split
  · exact absurd rfl (ne_of_isDigit (hdigits _ List.mem_cons_self)).1
  · exact absurd rfl (ne_of_isDigit (hdigits _ List.mem_cons_self)).2.1
  · rfl

/-! ## Numerals -/

/-- The characters of a numeral: digits, perhaps after a minus sign. -/
theorem mem_integerText {i : Int} {c : Char} (hmem : c ∈ (integerText i).toList) :
    c = '-' ∨ isDigit c = true := by
  cases i with
  | ofNat n =>
    simp only [integerText, String.toList_ofList] at hmem
    exact .inr (isDigit_of_mem_digitsOf hmem)
  | negSucc n =>
    simp only [integerText, String.toList_ofList, List.mem_cons] at hmem
    exact hmem.imp_right isDigit_of_mem_digitsOf

/-- An integer is read from its numeral. -/
theorem readInteger_integerText {i : Int} (hwritable : Writable i) :
    readInteger (integerText i).toList = .ok i := by
  have hall (n : Nat) : (digitsOf n).all isDigit = true :=
    List.all_eq_true.mpr fun _ => isDigit_of_mem_digitsOf
  have hsome (n : Nat) : (digitsOf n).isEmpty = false :=
    List.isEmpty_eq_false_iff.mpr (digitsOf_ne_nil n)
  cases i with
  | ofNat n =>
    have hlimit : ¬ digitLimit < (digitsOf n).length := Nat.not_lt.mpr hwritable
    simp [readInteger, integerText, splitSign_of_isDigit fun _ => isDigit_of_mem_digitsOf, hall,
      hsome, hlimit]
  | negSucc n =>
    have hlimit : ¬ digitLimit < (digitsOf (n + 1)).length := Nat.not_lt.mpr hwritable
    simp [readInteger, integerText, splitSign, hall, hsome, hlimit, Int.negSucc_eq]

/-! ## Padding -/

theorem isBlank_of_isDigit {c : Char} (hdigit : isDigit c = true) : isBlank c = false := by
  simp only [isDigit, Bool.and_eq_true, decide_eq_true_eq, UInt32.le_iff_toNat_le] at hdigit
  simp only [isBlank, isPadding, isWideBlank, Bool.or_eq_false_iff, Bool.and_eq_false_iff,
    decide_eq_false_iff_not, ← UInt32.toNat_inj, UInt32.le_iff_toNat_le]
  simp only [UInt32.reduceToNat] at hdigit ⊢
  omega

theorem dropWhile_of_forall {dropped : Char → Bool} {cs : List Char}
    (hkept : ∀ c ∈ cs, dropped c = false) : cs.dropWhile dropped = cs := by
  cases cs with
  | nil => rfl
  | cons c cs => rw [List.dropWhile_cons_of_neg (by simp [hkept c List.mem_cons_self])]

/-- Nothing is stripped of a text without the characters in question. -/
theorem strip_of_forall {dropped : Char → Bool} {cs : List Char}
    (hkept : ∀ c ∈ cs, dropped c = false) : strip dropped cs = cs := by
  rw [strip, dropWhile_of_forall hkept, dropWhile_of_forall (by simpa using hkept),
    List.reverse_reverse]

theorem strip_integerText (i : Int) :
    strip isBlank (integerText i).toList = (integerText i).toList := by
  refine strip_of_forall fun c hmem => ?_
  rcases mem_integerText hmem with rfl | hdigit
  · decide
  · exact isBlank_of_isDigit hdigit

/-! ## Pieces -/

theorem splitAt_of_not_mem {separator : Char} {cs : List Char} (habsent : separator ∉ cs) :
    splitAt separator cs = [cs] := by
  induction cs with
  | nil => rfl
  | cons c cs ih =>
    obtain ⟨hc, hcs⟩ := not_or.mp (List.mem_cons.not.mp habsent)
    rw [splitAt, if_neg (Ne.symm hc), ih hcs]

/-- A text is split at the first separator, and then the rest of it is. -/
theorem splitAt_append {separator : Char} {cs : List Char} (habsent : separator ∉ cs)
    (rest : List Char) :
    splitAt separator (cs ++ separator :: rest) = cs :: splitAt separator rest := by
  induction cs with
  | nil => rw [List.nil_append, splitAt, if_pos rfl]
  | cons c cs ih =>
    obtain ⟨hc, hcs⟩ := not_or.mp (List.mem_cons.not.mp habsent)
    rw [List.cons_append, splitAt, if_neg (Ne.symm hc), ih hcs]

theorem comma_not_mem_integerText (i : Int) : ',' ∉ (integerText i).toList := by
  intro hmem
  rcases mem_integerText hmem with hminus | hdigit
  · exact absurd hminus (by decide)
  · exact (ne_of_isDigit hdigit).2.2 rfl

end Text

/-! ## Keys -/

namespace Key

open Text (Writable integerText)

theorem readToken_integerText {i : Int} (hwritable : Writable i) (key : Value) :
    readToken key (.text (integerText i)) = .ok i := by
  simp only [readToken, Text.strip_integerText, Text.readInteger_integerText hwritable]

/-- The key of a linear term is read back. -/
theorem read_one {i : Int} (hwritable : Writable i) :
    read (.text (integerText i)) = .ok (.one i) := by
  have htokens : tokens? (.text (integerText i)) = some [.text (integerText i)] := by
    simp [tokens?, Text.splitAt_of_not_mem (Text.comma_not_mem_integerText i)]
  simp [read, htokens, readToken_integerText hwritable, Except.map]

/-- The key of a coupling is read back, in the order in which it names its variables. -/
theorem read_two {i j : Int} (hi : Writable i) (hj : Writable j) :
    read (.text (integerText i ++ "," ++ integerText j)) = .ok (.two i j) := by
  have htokens : tokens? (.text (integerText i ++ "," ++ integerText j)) =
      some [.text (integerText i), .text (integerText j)] := by
    have hsplit := Text.splitAt_append (Text.comma_not_mem_integerText i) (integerText j).toList
    rw [Text.splitAt_of_not_mem (Text.comma_not_mem_integerText j)] at hsplit
    simp [tokens?, hsplit]
  simp [read, htokens, readToken_integerText hi, readToken_integerText hj, bind, Except.bind,
    pure, Except.pure]

end Key

end Annealing
