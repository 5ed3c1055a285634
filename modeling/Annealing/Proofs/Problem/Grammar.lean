import Annealing.Proofs.Problem.Numerals
import Mathlib.Data.List.Forall2
import Mathlib.Data.List.Induction
import Mathlib.Data.List.TakeWhile
import Mathlib.Data.Nat.Digits.Defs

/-! # The grammar of keys

The pattern of a variable is an optional sign and one or more ASCII digits.  A key is one or two
such variables, each with any blanks around it; a text holds them with a comma in between, and a
tuple as its items, some of which may be integers.  The grammar is stated here without the functions
that read it.

* `Numeral.readInteger_eq`, `readInteger_malformed` — numerals are read as their values, up to a
  limit on their digits, and nothing else is.
* `token_iff`, `pieces_iff` — what is left after stripping, and what lies between commas.
* `Written.spells` — every way to write an integer is one to spell it.
* `Key.read_iff` — a list of items is read exactly if it fits, and else the first fault is told.
* `Key.read_grammar` — the keys that are texts and those that are tuples.
-/

namespace Annealing

namespace Text

/-! ## Numerals and tokens -/

/-- One or more digits from zero to nine. -/
structure Digits (ds : List Char) : Prop where
  ne_nil : ds ≠ []
  ascii : ∀ d ∈ ds, '0' ≤ d ∧ d ≤ '9'

/-- The number with some digits, the first of which counts most. -/
def valueOf (ds : List Char) : Nat :=
  Nat.ofDigits 10 (ds.reverse.map fun d => d.toNat - '0'.toNat)

/-- A text that the pattern of a variable matches, with its digits and its value. -/
inductive Numeral : (cs ds : List Char) → Int → Prop
  | unsigned {ds : List Char} (hdigits : Digits ds) : Numeral ds ds (valueOf ds)
  | plus {ds : List Char} (hdigits : Digits ds) : Numeral ('+' :: ds) ds (valueOf ds)
  | minus {ds : List Char} (hdigits : Digits ds) : Numeral ('-' :: ds) ds (-(valueOf ds : Int))

def Blanks (cs : List Char) : Prop :=
  ∀ c ∈ cs, isBlank c = true

instance (cs : List Char) : Decidable (Blanks cs) :=
  List.decidableBAll _ cs

/-- A numeral, perhaps with blanks around it. -/
inductive Token : (cs ds : List Char) → Int → Prop
  | padded {before core after ds : List Char} {i : Int} (hbefore : Blanks before)
      (hcore : Numeral core ds i) (hafter : Blanks after) : Token (before ++ core ++ after) ds i

/-- A token for an integer that has no more digits than can be read. -/
def Spells (cs : List Char) (i : Int) : Prop :=
  ∃ ds, Token cs ds i ∧ ds.length ≤ digitLimit

theorem isDigit_iff {c : Char} : isDigit c = true ↔ '0' ≤ c ∧ c ≤ '9' := by
  simp [isDigit, Char.le_def]

theorem Digits.isDigit {ds : List Char} (hdigits : Digits ds) : ∀ d ∈ ds, isDigit d = true :=
  fun d hmem => isDigit_iff.mpr (hdigits.ascii d hmem)

theorem digits_iff {ds : List Char} : Digits ds ↔ ds.isEmpty = false ∧ ds.all isDigit = true := by
  rw [List.isEmpty_eq_false_iff, List.all_eq_true]
  exact ⟨fun hdigits => ⟨hdigits.ne_nil, hdigits.isDigit⟩,
    fun ⟨hsome, hall⟩ => ⟨hsome, fun d hmem => isDigit_iff.mp (hall d hmem)⟩⟩

theorem digitsValue_eq (ds : List Char) : digitsValue ds = valueOf ds := by
  induction ds using List.reverseRecOn with
  | nil => rfl
  | append_singleton ds d ih =>
    simp only [digitsValue, valueOf, digitValue] at ih ⊢
    rw [List.foldl_append, ih]
    simp [Nat.ofDigits_cons, Nat.add_comm]

theorem Numeral.ne_nil {cs ds : List Char} {i : Int} (hnumeral : Numeral cs ds i) : cs ≠ [] := by
  cases hnumeral with
  | unsigned hdigits => exact hdigits.ne_nil
  | plus _ => exact List.cons_ne_nil _ _
  | minus _ => exact List.cons_ne_nil _ _

theorem Numeral.of_mem {cs ds : List Char} {i : Int} (hnumeral : Numeral cs ds i) {c : Char}
    (hmem : c ∈ cs) : c = '+' ∨ c = '-' ∨ isDigit c = true := by
  cases hnumeral with
  | unsigned hdigits => exact .inr (.inr (hdigits.isDigit c hmem))
  | plus hdigits =>
    cases hmem with
    | head => exact .inl rfl
    | tail _ hmem => exact .inr (.inr (hdigits.isDigit c hmem))
  | minus hdigits =>
    cases hmem with
    | head => exact .inr (.inl rfl)
    | tail _ hmem => exact .inr (.inr (hdigits.isDigit c hmem))

theorem Numeral.not_isBlank {cs ds : List Char} {i : Int} (hnumeral : Numeral cs ds i) :
    ∀ c ∈ cs, isBlank c = false := by
  intro c hmem
  rcases hnumeral.of_mem hmem with rfl | rfl | hdigit
  · decide
  · decide
  · exact isBlank_of_isDigit hdigit

theorem Token.comma_not_mem {cs ds : List Char} {i : Int} (htoken : Token cs ds i) : ',' ∉ cs := by
  obtain ⟨hbefore, hcore, hafter⟩ := htoken
  have hblanks {cs : List Char} (hcs : Blanks cs) : ',' ∉ cs :=
    fun hmem => absurd (hcs ',' hmem) (by decide)
  intro hmem
  rw [List.mem_append, List.mem_append] at hmem
  rcases hmem with (hmem | hmem) | hmem
  · exact hblanks hbefore hmem
  · rcases hcore.of_mem hmem with hplus | hminus | hdigit
    · exact absurd hplus (by decide)
    · exact absurd hminus (by decide)
    · exact (ne_of_isDigit hdigit).2.2 rfl
  · exact hblanks hafter hmem

theorem Spells.comma_not_mem {cs : List Char} {i : Int} (hspells : Spells cs i) : ',' ∉ cs := by
  obtain ⟨ds, htoken, -⟩ := hspells
  exact htoken.comma_not_mem

/-- A numeral is read as its value, unless it is too long. -/
theorem Numeral.readInteger_eq {cs ds : List Char} {i : Int} (hnumeral : Numeral cs ds i) :
    readInteger cs = if digitLimit < ds.length then .error .tooLong else .ok i := by
  cases hnumeral with
  | unsigned hdigits =>
    obtain ⟨hsome, hall⟩ := digits_iff.mp hdigits
    simp [readInteger, splitSign_of_isDigit hdigits.isDigit, hsome, hall, digitsValue_eq]
  | plus hdigits =>
    obtain ⟨hsome, hall⟩ := digits_iff.mp hdigits
    simp [readInteger, splitSign, hsome, hall, digitsValue_eq]
  | minus hdigits =>
    obtain ⟨hsome, hall⟩ := digits_iff.mp hdigits
    simp [readInteger, splitSign, hsome, hall, digitsValue_eq]

theorem exists_numeral {cs : List Char} (hdigits : Digits (splitSign cs).2) :
    ∃ i, Numeral cs (splitSign cs).2 i := by
  unfold splitSign at hdigits ⊢
  split at hdigits
  · exact ⟨_, .minus hdigits⟩
  · exact ⟨_, .plus hdigits⟩
  · exact ⟨_, .unsigned hdigits⟩

/-- What is no numeral is refused as malformed. -/
theorem readInteger_malformed {cs : List Char} (hnone : ∀ ds i, ¬ Numeral cs ds i) :
    readInteger cs = .error .malformed := by
  have hdigits : ¬ Digits (splitSign cs).2 := fun hdigits => by
    obtain ⟨i, hnumeral⟩ := exists_numeral hdigits
    exact hnone _ i hnumeral
  have hrefused : ((splitSign cs).2.isEmpty || !(splitSign cs).2.all isDigit) = true := by
    rw [digits_iff, not_and_or] at hdigits
    simpa using hdigits
  simp only [readInteger]
  rw [if_pos hrefused]

/-! ## Blanks -/

theorem dropWhile_blanks {before cs : List Char} (hbefore : Blanks before) :
    (before ++ cs).dropWhile isBlank = cs.dropWhile isBlank :=
  List.dropWhile_append_of_pos hbefore

/-- Blanks around a text without any are what is stripped of it. -/
theorem strip_padded {before core after : List Char} (hbefore : Blanks before)
    (hsome : core ≠ []) (hcore : ∀ c ∈ core, isBlank c = false) (hafter : Blanks after) :
    strip isBlank (before ++ core ++ after) = core := by
  have hfirst : (core ++ after).dropWhile isBlank = core ++ after := by
    cases core with
    | nil => exact absurd rfl hsome
    | cons c core =>
      exact List.dropWhile_cons_of_neg (by simp [hcore c List.mem_cons_self])
  have hlast : Blanks after.reverse := fun c hmem => hafter c (List.mem_reverse.mp hmem)
  rw [strip, List.append_assoc, dropWhile_blanks hbefore, hfirst, List.reverse_append,
    dropWhile_blanks hlast, dropWhile_of_forall (by simpa using hcore), List.reverse_reverse]

/-- Whatever is stripped of a text are blanks on both sides of the rest. -/
theorem exists_padding (cs : List Char) :
    ∃ before after, Blanks before ∧ Blanks after ∧ cs = before ++ strip isBlank cs ++ after := by
  refine ⟨cs.takeWhile isBlank, ((cs.dropWhile isBlank).reverse.takeWhile isBlank).reverse,
    fun c => List.mem_takeWhile_imp, ?_, ?_⟩
  · intro c hmem
    exact List.mem_takeWhile_imp (List.mem_reverse.mp hmem)
  · rw [strip, List.append_assoc, ← List.reverse_append, List.takeWhile_append_dropWhile,
      List.reverse_reverse, List.takeWhile_append_dropWhile]

/-- The tokens are the texts of which a numeral is left after stripping. -/
theorem token_iff {cs ds : List Char} {i : Int} :
    Token cs ds i ↔ Numeral (strip isBlank cs) ds i := by
  constructor
  · rintro ⟨hbefore, hcore, hafter⟩
    rwa [strip_padded hbefore hcore.ne_nil hcore.not_isBlank hafter]
  · intro hnumeral
    obtain ⟨before, after, hbefore, hafter, hcs⟩ := exists_padding cs
    rw [hcs]
    exact .padded hbefore hnumeral hafter

/-! ## Pieces -/

/-- The texts between the separators of a text. -/
structure Pieces (separator : Char) (cs : List Char) (pieces : List (List Char)) : Prop where
  ne_nil : pieces ≠ []
  absent : ∀ piece ∈ pieces, separator ∉ piece
  join_eq : [separator].intercalate pieces = cs

theorem splitAt_intercalate {separator : Char} {pieces : List (List Char)} (hsome : pieces ≠ [])
    (habsent : ∀ piece ∈ pieces, separator ∉ piece) :
    splitAt separator ([separator].intercalate pieces) = pieces := by
  induction pieces with
  | nil => exact absurd rfl hsome
  | cons piece rest ih =>
    have hpiece := habsent piece List.mem_cons_self
    cases rest with
    | nil =>
      rw [List.intercalate_singleton]
      exact splitAt_of_not_mem hpiece
    | cons next rest =>
      rw [List.intercalate_cons_cons, List.append_assoc, List.singleton_append,
        splitAt_append hpiece, ih (List.cons_ne_nil _ _)
          fun piece hmem => habsent piece (List.mem_cons_of_mem _ hmem)]

theorem pieces_splitAt (separator : Char) (cs : List Char) :
    Pieces separator cs (splitAt separator cs) := by
  induction cs with
  | nil => exact ⟨by simp [splitAt], by simp [splitAt], rfl⟩
  | cons c cs ih =>
    obtain ⟨piece, rest, hrest⟩ := List.exists_cons_of_ne_nil ih.ne_nil
    rw [hrest] at ih
    obtain ⟨-, habsent, hjoin⟩ := ih
    by_cases hc : c = separator
    · subst hc
      rw [splitAt, if_pos rfl, hrest]
      refine ⟨List.cons_ne_nil _ _, List.forall_mem_cons.mpr ⟨List.not_mem_nil, habsent⟩, ?_⟩
      rw [List.intercalate_cons_cons, hjoin]
      rfl
    · obtain ⟨hpiece, hothers⟩ := List.forall_mem_cons.mp habsent
      rw [splitAt, if_neg hc, hrest]
      refine ⟨List.cons_ne_nil _ _, List.forall_mem_cons.mpr ⟨?_, hothers⟩, ?_⟩
      · exact List.not_mem_cons_of_ne_of_not_mem (Ne.symm hc) hpiece
      · rw [← hjoin]
        cases rest with
        | nil => simp only [List.intercalate_singleton]
        | cons next rest => simp only [List.intercalate_cons_cons, List.cons_append]

/-- A text is split in one way. -/
theorem pieces_iff {separator : Char} {cs : List Char} {pieces : List (List Char)} :
    Pieces separator cs pieces ↔ splitAt separator cs = pieces := by
  constructor
  · rintro ⟨hsome, habsent, rfl⟩
    exact splitAt_intercalate hsome habsent
  · rintro rfl
    exact pieces_splitAt separator cs

/-! ## Spellings -/

/-- A way to write an integer: a sign, which may be a plus sign where there is no minus sign,
    zeros, the decimal digits, and blanks on both sides. -/
inductive Written : List Char → Int → Prop
  | mk {before sign after : List Char} {zeros : Nat} {i : Int} (hbefore : Blanks before)
      (hsign : 0 ≤ i ∧ (sign = [] ∨ sign = ['+']) ∨ i < 0 ∧ sign = ['-']) (hafter : Blanks after)
      (hlimit : zeros + (digitsOf i.natAbs).length ≤ digitLimit) :
      Written (before ++ (sign ++ (List.replicate zeros '0' ++ digitsOf i.natAbs)) ++ after) i

theorem digits_zeros (zeros n : Nat) : Digits (List.replicate zeros '0' ++ digitsOf n) := by
  refine ⟨List.append_ne_nil_of_right_ne_nil _ (digitsOf_ne_nil n), fun d hmem => ?_⟩
  cases List.mem_append.mp hmem with
  | inl hzero =>
    rw [List.eq_of_mem_replicate hzero]
    decide
  | inr hdigit => exact isDigit_iff.mp (isDigit_of_mem_digitsOf hdigit)

theorem valueOf_zeros (zeros n : Nat) : valueOf (List.replicate zeros '0' ++ digitsOf n) = n := by
  rw [← digitsValue_eq]
  induction zeros with
  | zero => exact digitsValue_digitsOf n
  | succ zeros ih => exact ih

/-- However an integer is written, it is spelled. -/
theorem Written.spells {cs : List Char} {i : Int} (hwritten : Written cs i) : Spells cs i := by
  obtain @⟨before, sign, after, zeros, _, hbefore, hsign, hafter, hlimit⟩ := hwritten
  have hdigits := digits_zeros zeros i.natAbs
  have hvalue := valueOf_zeros zeros i.natAbs
  refine ⟨List.replicate zeros '0' ++ digitsOf i.natAbs, .padded hbefore ?_ hafter,
    by simpa using hlimit⟩
  rcases hsign with ⟨hpositive, rfl | rfl⟩ | ⟨hnegative, rfl⟩
  · have hnumeral := Numeral.unsigned hdigits
    rwa [hvalue, Int.natAbs_of_nonneg hpositive] at hnumeral
  · have hnumeral := Numeral.plus hdigits
    rwa [hvalue, Int.natAbs_of_nonneg hpositive] at hnumeral
  · have hnumeral := Numeral.minus hdigits
    rwa [hvalue, Int.ofNat_natAbs_of_nonpos hnegative.le, Int.neg_neg] at hnumeral

theorem written_integerText {i : Int} (hwritable : Writable i) :
    Written (integerText i).toList i := by
  have hblanks : Blanks [] := by decide
  have hlimit : 0 + (digitsOf i.natAbs).length ≤ digitLimit := by
    rw [Nat.zero_add]
    exact hwritable
  cases i with
  | ofNat n =>
    have hwritten := Written.mk hblanks (.inl ⟨Int.natCast_nonneg n, .inl rfl⟩) hblanks hlimit
    simpa [integerText] using hwritten
  | negSucc n =>
    have hwritten := Written.mk hblanks (.inr ⟨Int.negSucc_lt_zero n, rfl⟩) hblanks hlimit
    simpa [integerText] using hwritten

end Text

/-- What is known of every case decides what a computation gives. -/
theorem except_iff_of_cases {ε α : Type} {x : Except ε α} {P : α → Prop} {Q : ε → Prop}
    (hok : ∀ a, P a → x = .ok a) (herror : ∀ e, Q e → x = .error e)
    (hcases : (∃ a, P a) ∨ ∃ e, Q e) :
    (∀ a, x = .ok a ↔ P a) ∧ ∀ e, x = .error e ↔ Q e := by
  cases hcases with
  | inl hgood =>
    obtain ⟨a, ha⟩ := hgood
    have hx := hok a ha
    refine ⟨fun b => ⟨fun hb => ?_, hok b⟩, fun e => ⟨fun he => ?_, herror e⟩⟩
    · rw [hx, Except.ok.injEq] at hb
      exact hb ▸ ha
    · rw [hx] at he
      cases he
  | inr hbad =>
    obtain ⟨e, he⟩ := hbad
    have hx := herror e he
    refine ⟨fun b => ⟨fun hb => ?_, hok b⟩, fun d => ⟨fun hd => ?_, herror d⟩⟩
    · rw [hx] at hb
      cases hb
    · rw [hx, Except.error.injEq] at hd
      exact hd ▸ he

namespace Key

open Text (Pieces Spells Token Writable Written digitLimit integerText)

/-! ## Items -/

/-- An item of a key that is read as an integer. -/
inductive Item : Value → Int → Prop
  | int (i : Int) : Item (.int i) i
  | text {s : String} {i : Int} (hspells : Spells s.toList i) : Item (.text s) i

/-- An item that is not read because it has too many digits. -/
inductive TooLong : Value → Prop
  | text {s : String} {ds : List Char} {i : Int} (htoken : Token s.toList ds i)
      (hlong : digitLimit < ds.length) : TooLong (.text s)

/-- Why an item is not read. -/
inductive Unread (key : Value) : Value → Fault → Prop
  | tooLong {item : Value} (hlong : TooLong item) : Unread key item .unusable
  | malformed {item : Value} (hitem : ∀ i, ¬ Item item i) (hshort : ¬ TooLong item) :
      Unread key item (.malformedKey key (.notInteger item))

/-- Why a key is not read: there are not one or two items, or else the first of them that is not
    read. -/
inductive Refused (key : Value) : List Value → Fault → Prop
  | count {items : List Value} (hcount : items = [] ∨ 2 < items.length) :
      Refused key items (.malformedKey key .wrongCount)
  | item {before after : List Value} {item : Value} {fault : Fault}
      (hcount : (before ++ item :: after).length ≤ 2) (hbefore : ∀ a ∈ before, ∃ i, Item a i)
      (hitem : Unread key item fault) : Refused key (before ++ item :: after) fault

theorem readToken_of_item {item : Value} {i : Int} (hitem : Item item i) (key : Value) :
    readToken key item = .ok i := by
  cases hitem with
  | int i => rfl
  | text hspells =>
    obtain ⟨ds, htoken, hlimit⟩ := hspells
    simp only [readToken, (Text.token_iff.mp htoken).readInteger_eq, if_neg (Nat.not_lt.mpr hlimit)]

theorem readToken_of_tooLong {item : Value} (hlong : TooLong item) (key : Value) :
    readToken key item = .error .unusable := by
  obtain ⟨htoken, hlong⟩ := hlong
  simp only [readToken, (Text.token_iff.mp htoken).readInteger_eq, if_pos hlong]

theorem readToken_of_malformed {item : Value} (hitem : ∀ i, ¬ Item item i)
    (hshort : ¬ TooLong item) (key : Value) :
    readToken key item = .error (.malformedKey key (.notInteger item)) := by
  cases item with
  | int i => exact absurd (.int i) (hitem i)
  | text s =>
    have hnone : ∀ ds i, ¬ Text.Numeral (Text.strip Text.isBlank s.toList) ds i := by
      intro ds i hnumeral
      have htoken := Text.token_iff.mpr hnumeral
      by_cases hlong : digitLimit < ds.length
      · exact hshort (.text htoken hlong)
      · exact hitem i (.text ⟨ds, htoken, Nat.le_of_not_lt hlong⟩)
    simp only [readToken, Text.readInteger_malformed hnone]
  | none | bool _ | float _ | list _ | tuple _ | dict _ => rfl

theorem item_or_unread (key item : Value) :
    (∃ i, Item item i) ∨ ∃ fault, Unread key item fault := by
  by_cases hlong : TooLong item
  · exact .inr ⟨_, .tooLong hlong⟩
  · by_cases hitem : ∃ i, Item item i
    · exact .inl hitem
    · exact .inr ⟨_, .malformed (not_exists.mp hitem) hlong⟩

theorem readToken_of_unread {key item : Value} {fault : Fault} (hunread : Unread key item fault) :
    readToken key item = .error fault := by
  cases hunread with
  | tooLong hlong => exact readToken_of_tooLong hlong key
  | malformed hitem hshort => exact readToken_of_malformed hitem hshort key

/-! ## Keys -/

section Items

variable {key : Value} {items : List Value}

theorem read_of_count (htokens : tokens? key = some items)
    (hcount : items = [] ∨ 2 < items.length) :
    read key = .error (.malformedKey key .wrongCount) := by
  simp only [read, htokens]
  rcases items with _ | ⟨a, _ | ⟨b, _ | ⟨c, rest⟩⟩⟩
  · rfl
  · simp at hcount
  · simp at hcount
  · rfl

theorem read_of_items (htokens : tokens? key = some items) {result : Key}
    (hitems : List.Forall₂ Item items result.vars) : read key = .ok result := by
  cases result with
  | one i =>
    obtain ⟨a, rest, ha, hrest, rfl⟩ := List.forall₂_cons_right_iff.mp hitems
    cases hrest
    simp only [read, htokens, readToken_of_item ha, Except.map]
  | two i j =>
    obtain ⟨a, rest, ha, hrest, rfl⟩ := List.forall₂_cons_right_iff.mp hitems
    obtain ⟨b, none, hb, hnone, rfl⟩ := List.forall₂_cons_right_iff.mp hrest
    cases hnone
    simp only [read, htokens, readToken_of_item ha, readToken_of_item hb]
    rfl

theorem read_of_refused (htokens : tokens? key = some items) {fault : Fault}
    (hrefused : Refused key items fault) : read key = .error fault := by
  cases hrefused with
  | count hcount => exact read_of_count htokens hcount
  | @item before after item fault hcount hbefore hitem =>
    have hread := readToken_of_unread hitem
    match before, after, hcount with
    | [], [], _ => simp [read, htokens, hread, Except.map]
    | [], [b], _ => simp [read, htokens, hread, bind, Except.bind]
    | [a], [], _ =>
      obtain ⟨i, ha⟩ := hbefore a List.mem_cons_self
      simp [read, htokens, readToken_of_item ha, hread, bind, Except.bind]
    | _ :: _ :: _, _, hcount =>
      simp only [List.length_append, List.length_cons] at hcount
      omega

/-- A key is read exactly if there are one or two items and each of them is, and else the first
    fault is the one that is told. -/
theorem read_iff (htokens : tokens? key = some items) :
    (∀ result : Key, read key = .ok result ↔ List.Forall₂ Item items result.vars) ∧
      ∀ fault, read key = .error fault ↔ Refused key items fault := by
  refine except_iff_of_cases (fun result => read_of_items htokens)
    (fun fault => read_of_refused htokens) ?_
  match items with
  | [] => exact .inr ⟨_, .count (.inl rfl)⟩
  | [a] =>
    rcases item_or_unread key a with ⟨i, ha⟩ | ⟨fault, ha⟩
    · exact .inl ⟨.one i, .cons ha .nil⟩
    · exact .inr ⟨fault, @Refused.item key [] [] a fault (by simp) (by simp) ha⟩
  | [a, b] =>
    rcases item_or_unread key a with ⟨i, ha⟩ | ⟨fault, ha⟩
    · rcases item_or_unread key b with ⟨j, hb⟩ | ⟨fault, hb⟩
      · exact .inl ⟨.two i j, .cons ha (.cons hb .nil)⟩
      · exact .inr ⟨fault, @Refused.item key [a] [] b fault (by simp) (by simpa using ⟨i, ha⟩) hb⟩
    · exact .inr ⟨fault, @Refused.item key [] [b] a fault (by simp) (by simp) ha⟩
  | _ :: _ :: _ :: _ => exact .inr ⟨_, .count (.inr (by simp))⟩

end Items

theorem tokens?_text {s : String} {pieces : List (List Char)}
    (hpieces : Pieces ',' s.toList pieces) :
    tokens? (.text s) = some (pieces.map fun piece => .text (String.ofList piece)) := by
  rw [tokens?, Text.pieces_iff.mp hpieces]

theorem item_text_iff {cs : List Char} {i : Int} :
    Item (.text (String.ofList cs)) i ↔ Spells cs i := by
  constructor
  · rintro (_ | hspells)
    rwa [String.toList_ofList] at hspells
  · intro hspells
    exact .text (by rwa [String.toList_ofList])

theorem exists_item_of_mem {items : List Value} {vars : List Int}
    (hitems : List.Forall₂ Item items vars) {a : Value} (hmem : a ∈ items) : ∃ i, Item a i := by
  induction hitems with
  | nil => cases hmem
  | cons hitem _ ih =>
    cases hmem with
    | head => exact ⟨_, hitem⟩
    | tail _ hmem => exact ih hmem

/-- A text is read by its pieces. -/
theorem read_text_iff {s : String} {pieces : List (List Char)}
    (hpieces : Pieces ',' s.toList pieces) (key : Key) :
    read (.text s) = .ok key ↔ List.Forall₂ Spells pieces key.vars := by
  rw [(read_iff (tokens?_text hpieces)).1, List.forall₂_map_left_iff]
  simp only [item_text_iff]

theorem not_item_of_comma {t : String} (hcomma : ',' ∈ t.toList) (i : Int) :
    ¬ Item (.text t) i := by
  rintro (_ | hspells)
  exact hspells.comma_not_mem hcomma

/-- An item with a comma in it is malformed, whatever the comma separates. -/
theorem unread_of_comma {t : String} (hcomma : ',' ∈ t.toList) (key : Value) :
    Unread key (.text t) (.malformedKey key (.notInteger (.text t))) := by
  refine .malformed (not_item_of_comma hcomma) ?_
  rintro ⟨htoken, -⟩
  exact htoken.comma_not_mem hcomma

/-- A text is taken apart at every comma.  It is read as a key exactly if there are one or two
    pieces, each of which is a numeral of few enough digits with any blanks around it, and then the
    key names the values of these numerals in their order.  Any other text is refused for the number
    of its pieces, or else for the first piece that is not read, which tells whether it has too many
    digits or is malformed.
    However an integer or two integers are written, they are read as from a tuple of these integers,
    and the decimal text of an integer is one of the ways to write it.
    The items of a tuple are read and refused by the same rules, but are not taken apart: an item
    with a comma in it is malformed. -/
theorem read_grammar :
    (∀ s : String, ∃ pieces, Pieces ',' s.toList pieces ∧
      (∀ key, read (.text s) = .ok key ↔ List.Forall₂ Spells pieces key.vars) ∧
      ∀ fault, read (.text s) = .error fault ↔
        Refused (.text s) (pieces.map fun piece => .text (String.ofList piece)) fault) ∧
    (∀ a i, Written a i → read (.text (String.ofList a)) = .ok (.one i) ∧
      read (.int i) = .ok (.one i) ∧ read (.tuple [.int i]) = .ok (.one i)) ∧
    (∀ a b i j, Written a i → Written b j →
      read (.text (String.ofList (a ++ ',' :: b))) = .ok (.two i j) ∧
        read (.tuple [.int i, .int j]) = .ok (.two i j)) ∧
    (∀ i, Writable i → Written (integerText i).toList i) ∧
    ∀ items : List Value,
      (∀ key, read (.tuple items) = .ok key ↔ List.Forall₂ Item items key.vars) ∧
      (∀ fault, read (.tuple items) = .error fault ↔ Refused (.tuple items) items fault) ∧
      ∀ t, .text t ∈ items → ',' ∈ t.toList → ∀ key, read (.tuple items) ≠ .ok key ∧
        Unread (.tuple items) (.text t)
          (.malformedKey (.tuple items) (.notInteger (.text t))) := by
  refine ⟨fun s => ?_, fun a i ha => ?_, fun a b i j ha hb => ?_,
    fun i => Text.written_integerText, fun items => ⟨?_, ?_, fun t ht hcomma key => ⟨?_, ?_⟩⟩⟩
  · have hpieces := Text.pieces_splitAt ',' s.toList
    exact ⟨_, hpieces, read_text_iff hpieces, (read_iff (tokens?_text hpieces)).2⟩
  · refine ⟨?_, rfl, rfl⟩
    have hpieces : Pieces ',' (String.ofList a).toList [a] := by
      refine ⟨List.cons_ne_nil _ _, by simpa using ha.spells.comma_not_mem, by simp⟩
    exact (read_text_iff hpieces (.one i)).mpr (.cons ha.spells .nil)
  · refine ⟨?_, rfl⟩
    have hpieces : Pieces ',' (String.ofList (a ++ ',' :: b)).toList [a, b] := by
      refine ⟨List.cons_ne_nil _ _, ?_, by simp [List.intercalate_cons_cons]⟩
      simpa using ⟨ha.spells.comma_not_mem, hb.spells.comma_not_mem⟩
    exact (read_text_iff hpieces (.two i j)).mpr (.cons ha.spells (.cons hb.spells .nil))
  · exact (read_iff rfl).1
  · exact (read_iff rfl).2
  · intro hread
    obtain ⟨i, hitem⟩ := exists_item_of_mem (((read_iff rfl).1 key).mp hread) ht
    exact not_item_of_comma hcomma i hitem
  · exact unread_of_comma hcomma (.tuple items)

theorem read_grammar_sample :
    read (.text (String.ofList ([' ', '+', '0', '7'] ++ ',' :: ['-', '3', '\t']))) =
        .ok (.two 7 (-3)) ∧
      read (.tuple [.int 7, .int (-3)]) = .ok (.two 7 (-3)) ∧
      ∀ key, read (.tuple [.text "1,2"]) ≠ .ok key := by
  obtain ⟨-, -, hpair, -, htuple⟩ := read_grammar
  have hleft : Written [' ', '+', '0', '7'] 7 :=
    @Written.mk [' '] ['+'] [] 1 7 (by decide) (.inl ⟨by decide, .inr rfl⟩) (by decide) (by decide)
  have hright : Written ['-', '3', '\t'] (-3) := by
    have hwritten := @Written.mk [] ['-'] ['\t'] 0 (-3) (by decide) (.inr ⟨by decide, rfl⟩)
      (by decide) (by decide)
    exact hwritten
  obtain ⟨htext, hints⟩ := hpair _ _ _ _ hleft hright
  obtain ⟨-, -, hwhole⟩ := htuple [.text "1,2"]
  exact ⟨htext, hints, fun key => (hwhole "1,2" List.mem_cons_self (by decide) key).1⟩

end Key

end Annealing
