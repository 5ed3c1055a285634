import Annealing.Proofs.Decimal.Exact
import Annealing.Proofs.Decimal.Integers

/-! # Sums of doubles

The sum of two finite doubles is the sum of their numbers, rounded to the nearest double.  So it is
infinite just if that sum is too great for a double, and a sum of many doubles is finite just if no
sum on the way to it is too great.

* `exists_add_ofPair` — how two pairs with signs are added.
* `isFinite_add_iff` — when a sum is finite.
* `StaysBelow`, `isFinite_foldl_add_iff` — and when a sum from the left is.
* `staysBelow_of_small` — small doubles can be added without end.
-/

namespace Annealing.Decimal

open Float.Model (UnpackedFloat)
open Float.Model.UnpackedFloat (Sign)

/-! ## Adding pairs -/

theorem signFactor_apply (s : Sign) (i : Int) : (s.apply i : ℚ) = signFactor s * i := by
  cases s with
  | negative => rw [signFactor, neg_one_mul, ← Int.cast_neg]; rfl
  | positive => rw [signFactor, one_mul]; rfl

/-- A pair with its exponent lowered. -/
theorem pairValue_lower (m : Nat) {a e : Int} (he : e ≤ a) :
    pairValue m a = (m * 2 ^ (a - e).toNat : Nat) * 2 ^ e := by
  obtain ⟨k, rfl⟩ := Int.le.dest he
  rw [pairValue, zpow_add₀ two_ne_zero, zpow_natCast, (by omega : (e + k - e).toNat = k)]
  push_cast
  ring

/-- The number of what is rounded after two pairs are brought to the lesser exponent. -/
theorem sum_eq (s t : Sign) (m n : Nat) (a b : Int) :
    signFactor s * pairValue m a + signFactor t * pairValue n b =
      (s.apply (m * 2 ^ (a - min a b).toNat : Nat) + t.apply (n * 2 ^ (b - min a b).toNat : Nat) :
        Int) * 2 ^ min a b := by
  rw [pairValue_lower m (min_le_left a b), pairValue_lower n (min_le_right a b), Int.cast_add,
    signFactor_apply, signFactor_apply, Int.cast_natCast, Int.cast_natCast]
  ring

/-- What is not zero is not rounded to zero, if it is a multiple of the least positive number. -/
theorem NearestEven.ne_zero {m : Nat} {e : Int} {n : Nat} {a : Int}
    (hnearest : NearestEven m e (pairValue n a)) (hn : n ≠ 0) (ha : -1074 ≤ a) : m ≠ 0 := by
  have hleast : Canonical 1 (-1074) := ⟨by decide, le_rfl, .inr rfl⟩
  have hone : (1 : ℚ) ≤ n := by exact_mod_cast Nat.one_le_iff_ne_zero.mpr hn
  have hle : pairValue 1 (-1074) ≤ pairValue n a := by
    rw [pairValue, pairValue, Nat.cast_one]
    exact mul_le_mul hone (zpow_le_zpow_right₀ one_le_two ha) (by positivity) n.cast_nonneg
  have hpos := (pairValue_pos one_ne_zero (-1074)).trans_le (hnearest.nearest.le_of_ge hleast hle)
  rintro rfl
  simp at hpos

theorem nearestEven_zero : NearestEven 0 (-1074) 0 := by
  have hzero := nearestEven_pairValue 0 (-1074)
  rwa [pairValue_zero] at hzero

/-- A pair is the pair next to its own number, with or without a sign. -/
theorem nearestEven_signed (s : Sign) (m : Nat) (a : Int) :
    NearestEven m a |signFactor s * pairValue m a| := by
  rw [abs_mul, abs_signFactor, one_mul, abs_of_nonneg (pairValue_nonneg m a)]
  exact nearestEven_pairValue m a

/-- Two pairs that are not zero are brought to one exponent and added up as integers. -/
theorem exists_add_of_ne_zero (s t : Sign) {m n : Nat} {a b : Int} (hm : m ≠ 0) (hn : n ≠ 0)
    (ha : -1074 ≤ a) (hb : -1074 ≤ b) :
    ∃ r p d, Canonical p d ∧
      UnpackedFloat.add .binary64 (ofPair s m a) (ofPair t n b) = ofPair r p d ∧
      NearestEven p d |signFactor s * pairValue m a + signFactor t * pairValue n b| ∧
      (p = 0 → r = .positive) := by
  obtain ⟨i, hi⟩ : ∃ i, s.apply (m * 2 ^ (a - min a b).toNat : Nat) +
      t.apply (n * 2 ^ (b - min a b).toNat : Nat) = i := ⟨_, rfl⟩
  have hadd : UnpackedFloat.add .binary64 (ofPair s m a) (ofPair t n b) =
      UnpackedFloat.normalize .binary64 i (min a b) .positive := by
    simp only [ofPair, hm, hn, dif_neg, not_false_eq_true, UnpackedFloat.add,
      UnpackedFloat.decreaseExponent, Nat.shiftLeft_eq, hi]
  have hvalue : |(i : ℚ) * 2 ^ min a b| = pairValue i.natAbs (min a b) := by
    rw [abs_mul, abs_of_pos (a := (2 : ℚ) ^ min a b) (by positivity), pairValue,
      Nat.cast_natAbs, Int.cast_abs]
  rw [sum_eq, hi, hadd, hvalue]
  by_cases hi0 : i = 0
  · subst hi0
    rw [Int.natAbs_zero, pairValue_zero]
    exact ⟨.positive, 0, -1074, canonical_zero, rfl, nearestEven_zero, fun _ => rfl⟩
  · obtain ⟨p, d, hpair, hround, hnearest⟩ := exists_normalize hi0 (min a b) .positive
    have hp := hnearest.ne_zero (Int.natAbs_ne_zero.mpr hi0) (le_min ha hb)
    exact ⟨_, p, d, hpair, hround, hnearest, fun h => absurd h hp⟩

/-- Two pairs with signs are added up to the nearest pair.  Zero with a minus sign comes of nothing
    but zeros with minus signs. -/
theorem exists_add_ofPair (s t : Sign) {m n : Nat} {a b : Int} (hm : Canonical m a)
    (hn : Canonical n b) :
    ∃ r p d, Canonical p d ∧
      UnpackedFloat.add .binary64 (ofPair s m a) (ofPair t n b) = ofPair r p d ∧
      NearestEven p d |signFactor s * pairValue m a + signFactor t * pairValue n b| ∧
      (p = 0 → r = .negative → s = .negative ∧ m = 0) := by
  by_cases hm0 : m = 0
  · subst hm0
    rw [pairValue_zero, mul_zero, zero_add]
    by_cases hn0 : n = 0
    · subst hn0
      rw [pairValue_zero, mul_zero, abs_zero]
      refine ⟨if s == t then s else .positive, 0, -1074, canonical_zero, ?_, nearestEven_zero,
        fun _ hr => ⟨?_, rfl⟩⟩
      · cases s <;> cases t <;> rfl
      · cases s with
        | negative => rfl
        | positive => cases t <;> cases hr
    · refine ⟨t, n, b, hn, ?_, nearestEven_signed t n b, fun h => absurd h hn0⟩
      rw [ofPair, dif_pos rfl, ofPair, dif_neg hn0]
      rfl
  · by_cases hn0 : n = 0
    · subst hn0
      rw [pairValue_zero, mul_zero, add_zero]
      refine ⟨s, m, a, hm, ?_, nearestEven_signed s m a, fun h => absurd h hm0⟩
      rw [ofPair, dif_neg hm0, ofPair, dif_pos rfl]
      rfl
    · obtain ⟨r, p, d, hpair, hadd, hnearest, hsign⟩ :=
        exists_add_of_ne_zero s t hm0 hn0 hm.le hn.le
      refine ⟨r, p, d, hpair, hadd, hnearest, fun hp hr => ?_⟩
      rw [hsign hp] at hr
      cases hr

/-! ## Sums that are finite -/

variable {x y : Float}

theorem unpack_add (x y : Float) : (x + y).toModel.unpack = (Float.Model.pack
    (UnpackedFloat.add .binary64 x.toModel.unpack y.toModel.unpack)).unpack :=
  rfl

/-- The sum of two finite doubles is the sum of their numbers, rounded. -/
theorem exists_add_roundedEven (hx : x.isFinite = true) (hy : y.isFinite = true) :
    ∃ r, RoundedEven r (x + y) |exact x + exact y| := by
  obtain ⟨s, m, a, hm, -, hx⟩ := exists_pair_of_isFinite hx
  obtain ⟨t, n, b, hn, -, hy⟩ := exists_pair_of_isFinite hy
  obtain ⟨r, p, d, hpair, hadd, hnearest, -⟩ := exists_add_ofPair s t hm hn
  refine ⟨r, p, d, hpair, ?_, ?_⟩
  · rwa [exact_of_unpack hx, exact_of_unpack hy]
  · rw [unpack_add, hx, hy, hadd]

theorem unpack_pack_notANumber : (Float.Model.pack .notANumber).unpack = .notANumber :=
  rfl

/-- What is not finite is added up to an infinity, or to what is no number. -/
theorem add_eq_of_not_isFinite {u v : UnpackedFloat} (h : u.isFinite = false ∨ v.isFinite = false) :
    UnpackedFloat.add .binary64 u v = .notANumber ∨
      ∃ s, UnpackedFloat.add .binary64 u v = .infinity s := by
  cases u with
  | notANumber => exact .inl rfl
  | infinity s =>
    cases v with
    | notANumber => exact .inl rfl
    | zero t | finite t n b hn => exact .inr ⟨s, rfl⟩
    | infinity t =>
      cases s with
      | negative =>
        cases t with
        | negative => exact .inr ⟨_, rfl⟩
        | positive => exact .inl rfl
      | positive =>
        cases t with
        | negative => exact .inl rfl
        | positive => exact .inr ⟨_, rfl⟩
  | zero s | finite s m e hm =>
    cases v with
    | notANumber => exact .inl rfl
    | infinity t => exact .inr ⟨t, rfl⟩
    | zero t | finite t n b hn => rcases h with hu | hv <;> contradiction

/-- Nothing that is added to an infinity makes it finite again. -/
theorem isFinite_add_of_not (h : x.isFinite = false ∨ y.isFinite = false) :
    (x + y).isFinite = false := by
  change (x + y).toModel.unpack.isFinite = false
  rw [unpack_add]
  rcases add_eq_of_not_isFinite h with hadd | ⟨s, hadd⟩
  · rw [hadd, unpack_pack_notANumber]
    rfl
  · rw [hadd, unpack_pack_infinity]
    rfl

/-- A sum is finite just if both parts are and the sum of their numbers is not too great. -/
theorem isFinite_add_iff : (x + y).isFinite = true ↔
    x.isFinite = true ∧ y.isFinite = true ∧ |exact x + exact y| < overflowBound := by
  by_cases h : x.isFinite = true ∧ y.isFinite = true
  · obtain ⟨r, hr⟩ := exists_add_roundedEven h.1 h.2
    rw [hr.isFinite_iff, and_iff_right h.1, and_iff_right h.2]
  · have hnot : x.isFinite = false ∨ y.isFinite = false := by
      rwa [not_and_or, Bool.not_eq_true, Bool.not_eq_true] at h
    rw [isFinite_add_of_not hnot]
    exact iff_of_false Bool.false_ne_true fun hall => h ⟨hall.1, hall.2.1⟩

/-! ## Sums from the left -/

/-- None of the sums that are met when doubles are added up one by one is too great for a double.
    Each is the number of a rounded sum and the number of the next double. -/
def StaysBelow (sum : Float) : List Float → Prop
  | [] => True
  | w :: ws => |exact sum + exact w| < overflowBound ∧ StaysBelow (sum + w) ws

instance StaysBelow.decidable : ∀ (sum : Float) (ws : List Float), Decidable (StaysBelow sum ws)
  | _, [] => isTrue trivial
  | sum, w :: ws =>
    have := StaysBelow.decidable (sum + w) ws
    inferInstanceAs (Decidable (|exact sum + exact w| < overflowBound ∧ StaysBelow (sum + w) ws))

theorem isFinite_foldl_add_of_not {sum : Float} (hsum : sum.isFinite = false) (ws : List Float) :
    (ws.foldl (· + ·) sum).isFinite = false := by
  induction ws generalizing sum with
  | nil => exact hsum
  | cons w ws ih => exact ih (isFinite_add_of_not (.inl hsum))

/-- A sum of finite doubles is finite just if every sum on the way is. -/
theorem isFinite_foldl_add_iff {ws : List Float} (hws : ∀ w ∈ ws, w.isFinite = true) {sum : Float}
    (hsum : sum.isFinite = true) :
    (ws.foldl (· + ·) sum).isFinite = true ↔ StaysBelow sum ws := by
  induction ws generalizing sum with
  | nil => exact iff_of_true hsum trivial
  | cons w ws ih =>
    have hadd := isFinite_add_iff (x := sum) (y := w)
    rw [and_iff_right hsum, and_iff_right (hws w List.mem_cons_self)] at hadd
    rw [List.foldl_cons, StaysBelow, ← hadd]
    by_cases hnext : (sum + w).isFinite = true
    · rw [and_iff_right hnext]
      exact ih (fun v hv => hws v (List.mem_cons_of_mem w hv)) hnext
    · rw [Bool.not_eq_true] at hnext
      simp [isFinite_foldl_add_of_not hnext, hnext]

/-! ## Small doubles -/

theorem abs_exact_le (hx : x.isFinite = true) : |exact x| ≤ pairValue (2 ^ 53 - 1) 971 := by
  obtain ⟨s, m, e, hpair, he, hunpack⟩ := exists_pair_of_isFinite hx
  rw [exact_of_unpack hunpack, abs_mul, abs_signFactor, one_mul,
    abs_of_nonneg (pairValue_nonneg m e)]
  exact hpair.le_greatest he

/-- The bound is half a step above the greatest double. -/
theorem greatest_add_half_step :
    pairValue (2 ^ 53 - 1) 971 + 2 ^ (970 : Int) = overflowBound := by
  have hmiddle := overflowBound_middle
  have hstep : pairValue (2 ^ 52) 972 = pairValue (2 ^ 53 - 1) 971 + 2 * 2 ^ (970 : Int) := by
    have hgreatest : (2 : ℚ) ^ (971 : Int) = 2 * 2 ^ (970 : Int) := zpow_one_add₀ two_ne_zero 970
    have hbeyond : (2 : ℚ) ^ (972 : Int) = 2 * 2 ^ (971 : Int) := zpow_one_add₀ two_ne_zero 971
    rw [pairValue, pairValue, hbeyond, hgreatest]
    generalize (2 : ℚ) ^ (970 : Int) = step
    norm_num
    ring
  linarith

/-- Doubles below half a step of the greatest one can be added to any finite double, however many
    they are. -/
theorem staysBelow_of_small {ws : List Float}
    (hws : ∀ w ∈ ws, w.isFinite = true ∧ |exact w| < 2 ^ (970 : Int)) {sum : Float}
    (hsum : sum.isFinite = true) : StaysBelow sum ws := by
  induction ws generalizing sum with
  | nil => trivial
  | cons w ws ih =>
    obtain ⟨hfinite, hsmall⟩ := hws w List.mem_cons_self
    have hbelow : |exact sum + exact w| < overflowBound := by
      have habs := abs_add_le (exact sum) (exact w)
      linarith [abs_exact_le hsum, greatest_add_half_step]
    refine ⟨hbelow, ih (fun v hv => hws v (List.mem_cons_of_mem w hv)) ?_⟩
    exact isFinite_add_iff.mpr ⟨hsum, hfinite, hbelow⟩

end Annealing.Decimal
