import Mathlib.Algebra.Order.Field.Power
import Mathlib.Data.Rat.Cast.Order
import Mathlib.Tactic.Linarith
import Mathlib.Tactic.Ring

/-! # The numbers that doubles are

A finite double without a minus sign is a significand of 53 bits times a power of two, and uses all
53 bits unless its exponent is the least.  This module is about such pairs and the rational numbers
that they are, without any `Float`.

* `Canonical` — the pairs; each number has one pair only (`Canonical.lt_iff`).
* `Nearest` — no pair is nearer to a number; nearest pairs are ordered as the numbers are.
* `NearestEven` — and of two that are as near the even one is meant.
* `nearest`, `middle_of_equally_near` — a multiple of the right power of two that is nearest to a
  number among all multiples is nearest to it among all pairs, and has no rival but in the middle.
* `Canonical.exists_pred` — above the least normal number the next lesser pair is near.
-/

namespace Annealing.Decimal

/-- The number with a significand and an exponent. -/
def pairValue (m : Nat) (e : Int) : ℚ :=
  m * 2 ^ e

/-- The pair of a double: a significand of at most 53 bits, all of which are in use unless the
    exponent is the least. -/
structure Canonical (m : Nat) (e : Int) : Prop where
  lt : m < 2 ^ 53
  le : -1074 ≤ e
  full : 2 ^ 52 ≤ m ∨ e = -1074

theorem canonical_zero : Canonical 0 (-1074) :=
  ⟨by decide, le_rfl, .inr rfl⟩

theorem pairValue_nonneg (m : Nat) (e : Int) : 0 ≤ pairValue m e := by
  unfold pairValue
  positivity

@[simp] theorem pairValue_zero (e : Int) : pairValue 0 e = 0 := by
  simp [pairValue]

theorem pairValue_pos {m : Nat} (hm : m ≠ 0) (e : Int) : 0 < pairValue m e := by
  have hpos : (0 : ℚ) < m := by exact_mod_cast Nat.pos_of_ne_zero hm
  unfold pairValue
  positivity

theorem pairValue_mul (m n : Nat) (a b : Int) :
    pairValue m a * pairValue n b = pairValue (m * n) (a + b) := by
  unfold pairValue
  rw [zpow_add₀ two_ne_zero]
  push_cast
  ring

/-- A power of two as a multiple of a lesser one. -/
theorem exists_two_zpow {a b : Int} (hab : a ≤ b) : ∃ k : Nat, (2 : ℚ) ^ b = 2 ^ k * 2 ^ a := by
  obtain ⟨k, rfl⟩ := Int.le.dest hab
  refine ⟨k, ?_⟩
  rw [zpow_add₀ two_ne_zero, zpow_natCast, mul_comm]

/-! ## Order -/

theorem pairValue_lt_of_exponent_lt {m n : Nat} {a b : Int} (hm : Canonical m a)
    (hn : Canonical n b) (hab : a < b) : pairValue m a < pairValue n b := by
  have hleast := hm.le
  have hfull : 2 ^ 52 ≤ n := hn.full.resolve_right (by omega)
  calc pairValue m a < 2 ^ 53 * 2 ^ a := by
        unfold pairValue
        have hlt : (m : ℚ) < 2 ^ 53 := by exact_mod_cast hm.lt
        exact mul_lt_mul_of_pos_right hlt (by positivity)
    _ = 2 ^ 52 * 2 ^ (a + 1) := by
        rw [zpow_add_one₀ two_ne_zero]
        ring
    _ ≤ n * 2 ^ b := by
        have hle : (2 ^ 52 : ℚ) ≤ n := by exact_mod_cast hfull
        have hpow : (2 : ℚ) ^ (a + 1) ≤ 2 ^ b := zpow_le_zpow_right₀ one_le_two hab
        exact mul_le_mul hle hpow (by positivity) (by positivity)

theorem pairValue_lt_iff_of_exponent_eq {m n : Nat} {e : Int} :
    pairValue m e < pairValue n e ↔ m < n := by
  unfold pairValue
  have hpos : (0 : ℚ) < 2 ^ e := by positivity
  rw [mul_lt_mul_iff_left₀ hpos, Nat.cast_lt]

/-- Pairs are ordered by their exponents first. -/
theorem Canonical.lt_iff {m n : Nat} {a b : Int} (hm : Canonical m a) (hn : Canonical n b) :
    pairValue m a < pairValue n b ↔ a < b ∨ (a = b ∧ m < n) := by
  rcases Int.lt_trichotomy a b with hlt | rfl | hgt
  · simp [hlt, pairValue_lt_of_exponent_lt hm hn hlt]
  · simp [pairValue_lt_iff_of_exponent_eq]
  · have hreverse := pairValue_lt_of_exponent_lt hn hm hgt
    simp [hgt.not_gt, hgt.ne', hreverse.le]

/-- A number has one pair only. -/
theorem Canonical.eq_of_pairValue_eq {m n : Nat} {a b : Int} (hm : Canonical m a)
    (hn : Canonical n b) (heq : pairValue m a = pairValue n b) : m = n ∧ a = b := by
  have hbelow := (hm.lt_iff hn).not.mp heq.not_lt
  have habove := (hn.lt_iff hm).not.mp heq.not_gt
  omega

/-- How many pairs there are below a pair. -/
def rank (m : Nat) (e : Int) : Nat :=
  (e + 1074).toNat * 2 ^ 52 + m

/-- Pairs are ranked in their order, so among them there is no endless descent. -/
theorem Canonical.rank_lt {m n : Nat} {a b : Int} (hm : Canonical m a) (hn : Canonical n b)
    (hlt : pairValue m a < pairValue n b) : rank m a < rank n b := by
  have hbits := hm.lt
  have hleast := hm.le
  have hfull := hn.full
  unfold rank
  rcases (hm.lt_iff hn).mp hlt with hab | ⟨rfl, hmn⟩ <;> omega

/-- Those that stand for doubles have an exponent of at most 971, and all of them are ranked below
    that of infinity. -/
theorem Canonical.rank_lt_of_le {m : Nat} {e : Int} (hm : Canonical m e) (he : e ≤ 971) :
    rank m e < 2047 * 2 ^ 52 := by
  have hbits := hm.lt
  have hleast := hm.le
  unfold rank
  omega

/-! ## Nearest pairs -/

/-- A number below the middle of two others is nearer to the lesser of them. -/
theorem nearer_of_below_middle {x y v : ℚ} (hxy : x < y) (hmiddle : 2 * v < x + y) :
    |x - v| < |y - v| := by
  rw [abs_of_pos (a := y - v) (by linarith)]
  exact abs_lt.mpr ⟨by linarith, by linarith⟩

/-- A number above the middle of two others is nearer to the greater of them. -/
theorem nearer_of_above_middle {x y v : ℚ} (hxy : x < y) (hmiddle : x + y < 2 * v) :
    |y - v| < |x - v| := by
  rw [abs_of_neg (a := x - v) (by linarith)]
  exact abs_lt.mpr ⟨by linarith, by linarith⟩

/-- No pair is nearer to the number. -/
def Nearest (m : Nat) (e : Int) (v : ℚ) : Prop :=
  ∀ n a, Canonical n a → |pairValue m e - v| ≤ |pairValue n a - v|

/-- No pair is nearer to the number, and if another one is as near the significand is even. -/
structure NearestEven (m : Nat) (e : Int) (v : ℚ) : Prop where
  nearest : Nearest m e v
  even : ∀ n a, Canonical n a → pairValue n a ≠ pairValue m e →
    |pairValue n a - v| = |pairValue m e - v| → m % 2 = 0

/-- What is nearest to a number is not above any pair that is not below the number. -/
theorem Nearest.le_of_le {m n : Nat} {e a : Int} {v : ℚ} (hnearest : Nearest m e v)
    (hn : Canonical n a) (hle : v ≤ pairValue n a) : pairValue m e ≤ pairValue n a := by
  have hnear := hnearest n a hn
  rw [abs_of_nonneg (sub_nonneg.mpr hle)] at hnear
  linarith [le_abs_self (pairValue m e - v)]

/-- What is nearest to a number is not below any pair that is not above the number. -/
theorem Nearest.le_of_ge {m n : Nat} {e a : Int} {v : ℚ} (hnearest : Nearest m e v)
    (hn : Canonical n a) (hle : pairValue n a ≤ v) : pairValue n a ≤ pairValue m e := by
  have hnear := hnearest n a hn
  rw [abs_of_nonpos (sub_nonpos.mpr hle)] at hnear
  linarith [neg_abs_le (pairValue m e - v)]

/-- What is nearest to the number of a pair is that number. -/
theorem Nearest.eq {m n : Nat} {e a : Int} (hnearest : Nearest m e (pairValue n a))
    (hn : Canonical n a) : pairValue m e = pairValue n a :=
  (hnearest.le_of_le hn le_rfl).antisymm (hnearest.le_of_ge hn le_rfl)

/-- What is nearest to the lesser of two numbers is not above what is nearest to the greater. -/
theorem Nearest.mono {m n : Nat} {e a : Int} {v w : ℚ} (hm : Canonical m e) (hn : Canonical n a)
    (hv : Nearest m e v) (hw : Nearest n a w) (hlt : v < w) : pairValue m e ≤ pairValue n a := by
  by_contra hnot
  have hgap : pairValue n a < pairValue m e := not_le.mp hnot
  -- The middle of the two would be at or below the lesser number, and at or above the greater.
  have hmiddle : pairValue n a + pairValue m e ≤ 2 * v := by
    by_contra hbelow
    exact (hv n a hn).not_gt (nearer_of_below_middle hgap (not_le.mp hbelow))
  have hmiddle' : 2 * w ≤ pairValue n a + pairValue m e := by
    by_contra habove
    exact (hw m e hm).not_gt (nearer_of_above_middle hgap (not_le.mp habove))
  linarith

/-- A number is at least half a step away from one of two multiples. -/
theorem step_le_of_ne {s : ℚ} (hs : 0 < s) {n r : Nat} (hne : n ≠ r) (v : ℚ) :
    s ≤ |n * s - v| + |r * s - v| := by
  have hapart : (1 : ℚ) ≤ |(n : ℚ) - r| := by
    have hint : (1 : ℤ) ≤ |(n : ℤ) - r| := Int.one_le_abs (by omega)
    exact_mod_cast hint
  calc s ≤ |n * s - r * s| := by
        rw [← sub_mul, abs_mul, abs_of_pos hs]
        exact le_mul_of_one_le_left hs.le hapart
    _ ≤ |n * s - v| + |r * s - v| := by
        have hsum := abs_sub_le (n * s) v (r * s)
        rwa [abs_sub_comm v] at hsum

/-- A multiple within half a step of a number is nearest to it among all multiples. -/
theorem nearest_multiple {v s : ℚ} (hs : 0 < s) {r : Nat} (hhalf : |r * s - v| ≤ s / 2) (n : Nat) :
    |r * s - v| ≤ |n * s - v| := by
  by_cases hn : n = r
  · rw [hn]
  · linarith [step_le_of_ne hs hn v]

section Multiples

variable {v : ℚ} {r : Nat} {t : Int} (hhalf : |r * 2 ^ t - v| ≤ 2 ^ t / 2)
  (hlarge : t = -1074 ∨ 2 ^ 52 * 2 ^ t ≤ v) {m : Nat} {e : Int} (hm : Canonical m e)

include hhalf hlarge hm

/-- Let a multiple of a power of two be within half a step of a number, and let the number be so
    large that pairs with lesser exponents lie below it, or the power be the least.  Then every pair
    is another multiple, or it is farther away. -/
theorem multiple_or_farther :
    (∃ n : Nat, pairValue m e = n * 2 ^ t) ∨ |r * 2 ^ t - v| < |pairValue m e - v| := by
  by_cases hte : t ≤ e
  · obtain ⟨k, hk⟩ := exists_two_zpow hte
    refine .inl ⟨m * 2 ^ k, ?_⟩
    rw [pairValue, hk]
    push_cast
    ring
  · -- The pair lies below the number, and the least full multiple lies between them.
    right
    have hleast := hm.le
    have hv : 2 ^ 52 * 2 ^ t ≤ v := hlarge.resolve_left (by omega)
    have hpair : pairValue m e < 2 ^ 52 * 2 ^ t := by
      have hlt : (m : ℚ) < 2 ^ 53 := by exact_mod_cast hm.lt
      have hpow : (2 : ℚ) ^ e ≤ 2 ^ (t - 1) := zpow_le_zpow_right₀ one_le_two (by omega)
      calc pairValue m e ≤ m * 2 ^ (t - 1) := mul_le_mul_of_nonneg_left hpow m.cast_nonneg
        _ < 2 ^ 53 * 2 ^ (t - 1) := mul_lt_mul_of_pos_right hlt (by positivity)
        _ = 2 ^ 52 * 2 ^ t := by
            rw [zpow_sub_one₀ two_ne_zero]
            ring
    have hcast : ((2 ^ 52 : Nat) : ℚ) = 2 ^ 52 := by push_cast; rfl
    calc |r * 2 ^ t - v| ≤ |((2 ^ 52 : Nat) : ℚ) * 2 ^ t - v| :=
          nearest_multiple (by positivity) hhalf _
      _ = v - 2 ^ 52 * 2 ^ t := by
          rw [hcast, abs_sub_comm, abs_of_nonneg (sub_nonneg.mpr hv)]
      _ < v - pairValue m e := sub_lt_sub_left hpair v
      _ ≤ |pairValue m e - v| := by
          rw [abs_sub_comm]
          exact le_abs_self _

/-- So such a multiple is nearest to the number among all pairs. -/
theorem nearest : |r * 2 ^ t - v| ≤ |pairValue m e - v| := by
  rcases multiple_or_farther hhalf hlarge hm with ⟨n, hn⟩ | hfarther
  · rw [hn]
    exact nearest_multiple (by positivity) hhalf n
  · exact hfarther.le

/-- Another pair can be as near only if the number is in the middle of two multiples. -/
theorem middle_of_equally_near (hne : pairValue m e ≠ r * 2 ^ t)
    (hequal : |pairValue m e - v| = |r * 2 ^ t - v|) : |r * 2 ^ t - v| = 2 ^ t / 2 := by
  rcases multiple_or_farther hhalf hlarge hm with ⟨n, hn⟩ | hfarther
  · have hother : n ≠ r := by
      rintro rfl
      exact hne hn
    have hstep := step_le_of_ne (s := 2 ^ t) (by positivity) hother v
    rw [← hn, hequal] at hstep
    linarith
  · exact absurd hequal hfarther.ne'

end Multiples

/-! ## Gaps -/

/-- The least normal number: all bits are in use, and the exponent is the least. -/
theorem pairValue_leastNormal : pairValue (2 ^ 52) (-1074) = 2 ^ (-1022 : Int) := by
  have hcast : ((2 ^ 52 : Nat) : ℚ) = 2 ^ 52 := by push_cast; rfl
  rw [pairValue, hcast, ← zpow_natCast, ← zpow_add₀ two_ne_zero]
  norm_num

/-- A number of pairs below one stays below it by `2 ^ (-53)`. -/
theorem Canonical.le_of_lt_one {m : Nat} {e : Int} (hm : Canonical m e)
    (hlt : pairValue m e < 1) : pairValue m e ≤ 1 - 2 ^ (-53 : Int) := by
  have he : e ≤ -53 := by
    by_contra hnot
    have hfull : 2 ^ 52 ≤ m := hm.full.resolve_right (by omega)
    have hle : (2 ^ 52 : ℚ) ≤ m := by exact_mod_cast hfull
    have hpow : (2 : ℚ) ^ (-52 : Int) ≤ 2 ^ e := zpow_le_zpow_right₀ one_le_two (by omega)
    have hone : (1 : ℚ) ≤ pairValue m e := by
      calc (1 : ℚ) = 2 ^ 52 * 2 ^ (-52 : Int) := by norm_num
        _ ≤ m * 2 ^ e := mul_le_mul hle hpow (by positivity) (by positivity)
    linarith
  have hle : (m : ℚ) ≤ 2 ^ 53 - 1 := by
    have hsucc : m + 1 ≤ 2 ^ 53 := hm.lt
    have hcast : ((m + 1 : Nat) : ℚ) ≤ ((2 ^ 53 : Nat) : ℚ) := Nat.cast_le.mpr hsucc
    push_cast at hcast
    linarith
  have hpow : (2 : ℚ) ^ e ≤ 2 ^ (-53 : Int) := zpow_le_zpow_right₀ one_le_two he
  calc pairValue m e ≤ (2 ^ 53 - 1) * 2 ^ (-53 : Int) :=
        mul_le_mul hle hpow (by positivity) (by norm_num)
    _ = 1 - 2 ^ (-53 : Int) := by norm_num

/-- Above the least normal number there is a lesser pair, so near that a number which falls short
    by one part in `2 ^ 53` is nearer to it. -/
theorem Canonical.exists_pred {m : Nat} {e : Int} (hm : Canonical m e)
    (hnormal : 2 ^ (-1022 : Int) < pairValue m e) :
    ∃ n a, Canonical n a ∧
      ∀ v ≤ pairValue m e * (1 - 2 ^ (-53 : Int)), |pairValue n a - v| < |pairValue m e - v| := by
  have hpos : (0 : ℚ) < 2 ^ e := by positivity
  have hpart : (2 : ℚ) ^ (-53 : Int) = 1 / 2 ^ 53 := by norm_num
  by_cases hboundary : m ≤ 2 ^ 52
  -- At a power of two the significand gives way to a full one with a lesser exponent.
  · have he : e ≠ -1074 := by
      rintro rfl
      rw [← pairValue_leastNormal, pairValue_lt_iff_of_exponent_eq] at hnormal
      omega
    have hfull : 2 ^ 52 ≤ m := hm.full.resolve_right he
    obtain rfl : m = 2 ^ 52 := by omega
    have hleast := hm.le
    refine ⟨2 ^ 53 - 1, e - 1, ⟨by norm_num, by omega, .inl (by norm_num)⟩, ?_⟩
    intro v hv
    have hpred : pairValue (2 ^ 53 - 1) (e - 1) = pairValue (2 ^ 52) e - 2 ^ e / 2 := by
      unfold pairValue
      rw [zpow_sub_one₀ two_ne_zero]
      push_cast
      ring
    have hvalue : pairValue (2 ^ 52) e = 2 ^ 52 * 2 ^ e := by
      unfold pairValue
      push_cast
      rfl
    apply nearer_of_below_middle
    · rw [hpred]
      linarith
    · rw [hpred, hvalue]
      rw [hvalue, hpart] at hv
      linarith
  -- Elsewhere the significand is one less.
  · refine ⟨m - 1, e, ⟨by have := hm.lt; omega, hm.le, .inl (by omega)⟩, ?_⟩
    intro v hv
    have hpred : pairValue (m - 1) e = pairValue m e - 2 ^ e := by
      unfold pairValue
      rw [Nat.cast_sub (by omega)]
      push_cast
      ring
    have hmore : 2 ^ 52 * 2 ^ e < pairValue m e := by
      have hlt : (2 ^ 52 : ℚ) < m := by exact_mod_cast Nat.lt_of_not_le hboundary
      exact mul_lt_mul_of_pos_right hlt hpos
    apply nearer_of_below_middle
    · rw [hpred]
      linarith
    · rw [hpred]
      rw [hpart] at hv
      linarith

end Annealing.Decimal
