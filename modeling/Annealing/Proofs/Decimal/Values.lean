import Annealing.Proofs.Decimal.Doubles
import Annealing.Value.Arithmetic
import Mathlib.Algebra.Order.Monoid.WithTop

/-! # The values of numbers

A number that can be a temperature is an integer, a finite double without a minus sign, or infinity.
All three have a value among the rational numbers with a greatest one added, and they are compared
as their values are, without rounding.

* `HasValue.compare_eq` — doubles with values are compared as these, infinity included.
* `Number.HasValue.lt_iff`, `Number.HasValue.eq_iff` — the order of numbers is that of their values.
* `Number.HasValue.exists_of_lt` — a double above such a number has a value too.
-/

namespace Annealing

namespace Decimal

open Float.Model (UnpackedFloat)

/-- A double that is finite without a minus sign, or infinity, has a value. -/
inductive HasValue (x : Float) : WithTop ℚ → Prop where
  | finite {m : Nat} {e : Int} (hx : Magnitude x m e) : HasValue x (pairValue m e)
  | infinite (hx : x.toModel.unpack = .infinity .positive) : HasValue x ⊤

theorem HasValue.exists_magnitude {x : Float} {q : ℚ} (hx : HasValue x q) :
    ∃ m e, Magnitude x m e ∧ pairValue m e = q := by
  generalize hv : (q : WithTop ℚ) = v at hx
  cases hx with
  | @finite m e hx => exact ⟨m, e, hx, (WithTop.coe_inj.mp hv).symm⟩
  | infinite hx => cases hv

theorem HasValue.ne_top_of_isFinite {x : Float} {v : WithTop ℚ} (hx : HasValue x v)
    (hfinite : x.isFinite = true) : v ≠ ⊤ := by
  cases hx with
  | finite hx => exact WithTop.coe_ne_top
  | infinite hx =>
    change x.toModel.unpack.isFinite = true at hfinite
    rw [hx] at hfinite
    cases hfinite

section Order

variable {x y : Float} {v w : WithTop ℚ}

theorem compare_infinity_ofPair (m : Nat) (e : Int) :
    (UnpackedFloat.infinity .positive).compare (ofPair .positive m e) = some .gt := by
  unfold ofPair
  split <;> rfl

theorem compare_ofPair_infinity (m : Nat) (e : Int) :
    (ofPair .positive m e).compare (.infinity .positive) = some .lt := by
  unfold ofPair
  split <;> rfl

/-- Doubles are compared as their values are. -/
theorem HasValue.compare_eq (hx : HasValue x v) (hy : HasValue y w) :
    x.toModel.unpack.compare y.toModel.unpack = some (compare v w) := by
  cases hx with
  | finite hx =>
    cases hy with
    | finite hy =>
      rw [hx.compare_eq hy, ← cmp_eq_compare, ← cmp_eq_compare,
        WithTop.coe_strictMono.cmp_map_eq]
    | infinite hy =>
      rw [hx.unpack_eq, hy, compare_ofPair_infinity, compare_lt_iff_lt.mpr (WithTop.coe_lt_top _)]
  | infinite hx =>
    cases hy with
    | finite hy =>
      rw [hx, hy.unpack_eq, compare_infinity_ofPair, compare_gt_iff_gt.mpr (WithTop.coe_lt_top _)]
    | infinite hy =>
      rw [hx, hy, compare_eq_iff_eq.mpr rfl]
      rfl

theorem HasValue.lt_iff (hx : HasValue x v) (hy : HasValue y w) : x < y ↔ v < w :=
  lt_iff_of_compare (hx.compare_eq hy)

theorem HasValue.le_iff (hx : HasValue x v) (hy : HasValue y w) : x ≤ y ↔ v ≤ w :=
  le_iff_of_compare (hx.compare_eq hy)

end Order

/-- Nothing that is not above zero is above a double that has a value. -/
theorem HasValue.compare_ne_lt {x : Float} {v : WithTop ℚ} (hx : HasValue x v) {u : UnpackedFloat}
    (hu : u.compare (.zero .positive) ≠ some .gt) : x.toModel.unpack.compare u ≠ some .lt := by
  have hdead : ∀ m e, (ofPair .positive m e).compare u ≠ some .lt ∧
      (UnpackedFloat.infinity .positive).compare u ≠ some .lt := by
    intro m e
    unfold ofPair
    -- Only a positive finite number or infinity could be above, and both are above zero.
    cases u with
    | notANumber => split <;> simp [UnpackedFloat.compare]
    | zero sign => split <;> simp [UnpackedFloat.compare]
    | infinity sign | finite sign =>
      cases sign with
      | positive => exact absurd rfl hu
      | negative => split <;> simp [UnpackedFloat.compare, compare]
  cases hx with
  | @finite m e hx =>
    rw [hx.unpack_eq]
    exact (hdead m e).1
  | infinite hx =>
    rw [hx]
    exact (hdead 0 0).2

/-- A double above zero is finite without a minus sign, or infinity. -/
theorem exists_value_of_compare {y : Float}
    (hy : y.toModel.unpack.compare (.zero .positive) = some .gt) : ∃ w, HasValue y w := by
  cases hunpack : y.toModel.unpack with
  | finite sign m e hm =>
    cases sign with
    | positive => exact ⟨_, .finite (magnitude_of_finite hunpack)⟩
    | negative =>
      rw [hunpack] at hy
      cases hy
  | infinity sign =>
    cases sign with
    | positive => exact ⟨⊤, .infinite hunpack⟩
    | negative =>
      rw [hunpack] at hy
      cases hy
  | zero sign | notANumber =>
    rw [hunpack] at hy
    cases hy

/-- A double above one that has a value has a value itself. -/
theorem HasValue.exists_of_lt {x y : Float} {v : WithTop ℚ} (hx : HasValue x v) (hlt : x < y) :
    ∃ w, HasValue y w := by
  by_contra hnone
  have hy := fun h => hnone (exists_value_of_compare h)
  exact hx.compare_ne_lt hy (lt_iff_compare.mp hlt)

/-! ## Exact values -/

theorem Dyadic.denominator_pos (d : Dyadic) : (0 : ℚ) < d.denominator := by
  exact_mod_cast Nat.two_pow_pos (-d.exponent).toNat

/-- A dyadic number without a minus sign is the number of its pair. -/
theorem Dyadic.signed_eq (m : Nat) (e : Int) :
    ((Dyadic.mk false m e).signed : ℚ) = pairValue m e * (Dyadic.mk false m e).denominator := by
  change (((m * 2 ^ e.toNat : Nat) : Int) : ℚ) = m * 2 ^ e * ((2 ^ (-e).toNat : Nat) : ℚ)
  push_cast
  rw [mul_assoc, ← zpow_natCast, ← zpow_natCast, ← zpow_add₀ two_ne_zero]
  congr 2
  omega

/-- The exact value of a magnitude is the number of its pair. -/
theorem Magnitude.exists_dyadic {x : Float} {m : Nat} {e : Int} (hx : Magnitude x m e) :
    ∃ d, dyadic? x = some d ∧ (d.signed : ℚ) = pairValue m e * d.denominator := by
  unfold dyadic?
  rw [hx.unpack_eq, ofPair]
  by_cases hzero : m = 0
  · subst hzero
    exact ⟨_, rfl, by simp [Dyadic.signed, Dyadic.numerator]⟩
  · rw [dif_neg hzero]
    exact ⟨_, rfl, Dyadic.signed_eq m e⟩

theorem Dyadic.ceiling_eq (d : Dyadic) : d.ceiling = ⌈(d.signed : ℚ) / d.denominator⌉ := by
  rw [Rat.ceil_intCast_div_natCast, ceiling, Int.fdiv_eq_ediv_of_nonneg _ (by omega)]

theorem Magnitude.isFinite {x : Float} {m : Nat} {e : Int} (hx : Magnitude x m e) :
    x.isFinite = true := by
  change x.toModel.unpack.isFinite = true
  rw [hx.unpack_eq, ofPair]
  split <;> rfl

theorem Magnitude.exists_ceiling {x : Float} {m : Nat} {e : Int} (hx : Magnitude x m e) :
    ∃ d, dyadic? x = some d ∧ d.ceiling = ⌈pairValue m e⌉ := by
  obtain ⟨d, hd, hsigned⟩ := hx.exists_dyadic
  refine ⟨d, hd, ?_⟩
  rw [d.ceiling_eq, hsigned, mul_div_cancel_right₀ _ d.denominator_pos.ne']

theorem zero_lt_infinity {x : Float} (hx : x.toModel.unpack = .infinity .positive) : 0 < x := by
  rw [lt_iff_compare, hx]
  rfl

theorem HasValue.intLtFloat_iff {x : Float} {v : WithTop ℚ} (hx : HasValue x v) (i : Int) :
    intLtFloat i x = true ↔ ((i : ℚ) : WithTop ℚ) < v := by
  cases hx with
  | finite hx =>
    obtain ⟨d, hd, hsigned⟩ := hx.exists_dyadic
    have hpos := d.denominator_pos
    rw [WithTop.coe_lt_coe, intLtFloat, hd]
    simp only [decide_eq_true_eq]
    rw [← mul_lt_mul_iff_left₀ hpos, ← hsigned]
    norm_cast
  | infinite hx =>
    have hnone : dyadic? x = none := by rw [dyadic?, hx]
    have hinf : x.isInf = true := by
      change x.toModel.unpack.isInf = true
      rw [hx]
      rfl
    simp [intLtFloat, hnone, hinf, zero_lt_infinity hx]

theorem HasValue.floatLtInt_iff {x : Float} {v : WithTop ℚ} (hx : HasValue x v) (i : Int) :
    floatLtInt x i = true ↔ v < ((i : ℚ) : WithTop ℚ) := by
  cases hx with
  | finite hx =>
    obtain ⟨d, hd, hsigned⟩ := hx.exists_dyadic
    have hpos := d.denominator_pos
    rw [WithTop.coe_lt_coe, floatLtInt, hd]
    simp only [decide_eq_true_eq]
    rw [← mul_lt_mul_iff_left₀ hpos, ← hsigned]
    norm_cast
  | infinite hx =>
    have hnone : dyadic? x = none := by rw [dyadic?, hx]
    have hnot : ¬ x < 0 := by
      rw [lt_iff_compare, hx]
      intro h
      cases h
    simp [floatLtInt, hnone, hnot]

theorem HasValue.intEqFloat_iff {x : Float} {v : WithTop ℚ} (hx : HasValue x v) (i : Int) :
    intEqFloat i x = true ↔ ((i : ℚ) : WithTop ℚ) = v := by
  cases hx with
  | finite hx =>
    obtain ⟨d, hd, hsigned⟩ := hx.exists_dyadic
    rw [WithTop.coe_inj, intEqFloat, hd]
    simp only [decide_eq_true_eq]
    rw [← mul_left_inj' d.denominator_pos.ne', ← hsigned]
    norm_cast
  | infinite hx =>
    have hnone : dyadic? x = none := by rw [dyadic?, hx]
    simp [intEqFloat, hnone]

/-- A dyadic number above an integer that is not negative has no minus sign, and is not zero. -/
theorem Dyadic.positive_of_lt {d : Dyadic} {i : Int} (hi : 0 ≤ i)
    (hlt : i * d.denominator < d.signed) : d.negative = false ∧ d.significand ≠ 0 := by
  have hscaled : 0 ≤ i * d.denominator := Int.mul_nonneg hi (by omega)
  unfold signed at hlt
  cases hnegative : d.negative with
  | true =>
    rw [hnegative, if_pos rfl] at hlt
    omega
  | false =>
    refine ⟨rfl, fun hzero => ?_⟩
    rw [hnegative, numerator, hzero, Nat.zero_mul] at hlt
    simp at hlt
    omega

/-- A double above an integer that is not negative has a value. -/
theorem exists_value_of_intLtFloat {i : Int} (hi : 0 ≤ i) {x : Float}
    (hlt : intLtFloat i x = true) : ∃ w, HasValue x w := by
  apply exists_value_of_compare
  unfold intLtFloat dyadic? at hlt
  cases hunpack : x.toModel.unpack with
  | finite sign m e hm =>
    simp only [hunpack, decide_eq_true_eq] at hlt
    cases sign with
    | positive => rfl
    | negative => cases (Dyadic.positive_of_lt hi hlt).1
  | zero sign =>
    simp only [hunpack, decide_eq_true_eq] at hlt
    exact absurd rfl (Dyadic.positive_of_lt hi hlt).2
  | infinity sign =>
    simp only [hunpack, Bool.and_eq_true, decide_eq_true_eq] at hlt
    have habove := lt_iff_compare.mp hlt.2
    rw [hunpack] at habove
    cases sign with
    | positive => rfl
    | negative => cases habove
  | notANumber =>
    simp only [hunpack, Bool.and_eq_true, decide_eq_true_eq] at hlt
    have habove := lt_iff_compare.mp hlt.2
    rw [hunpack] at habove
    cases habove

end Decimal

/-! ## Numbers -/

namespace Number

open Decimal (HasValue)

/-- An integer has a value, and a double that has one. -/
inductive HasValue : Number → WithTop ℚ → Prop where
  | int (i : Int) : HasValue (.int i) (i : ℚ)
  | float {x : Float} {v : WithTop ℚ} (hx : Decimal.HasValue x v) : HasValue (.float x) v

/-- Numbers are compared as their values are. -/
theorem HasValue.lt_iff {a b : Number} {v w : WithTop ℚ} (ha : a.HasValue v) (hb : b.HasValue w) :
    a.lt b = true ↔ v < w := by
  cases ha with
  | int i =>
    cases hb with
    | int j =>
      rw [WithTop.coe_lt_coe]
      simp [Number.lt]
    | float hy => exact hy.intLtFloat_iff i
  | float hx =>
    cases hb with
    | int j => exact hx.floatLtInt_iff j
    | float hy =>
      rw [← hx.lt_iff hy]
      simp [Number.lt]

/-- Numbers are equal if their values are. -/
theorem HasValue.eq_iff {a b : Number} {v w : WithTop ℚ} (ha : a.HasValue v) (hb : b.HasValue w) :
    a.eq b = true ↔ v = w := by
  cases ha with
  | int i =>
    cases hb with
    | int j =>
      rw [WithTop.coe_inj]
      simp [Number.eq]
    | float hy => exact hy.intEqFloat_iff i
  | float hx =>
    cases hb with
    | int j => exact (hx.intEqFloat_iff j).trans eq_comm
    | float hy => exact Decimal.beq_iff_of_compare (hx.compare_eq hy)

/-- A double that is above a number that is not negative has a value. -/
theorem HasValue.exists_of_lt {a : Number} {v : WithTop ℚ} (ha : a.HasValue v) (hv : 0 ≤ v)
    {x : Float} (hlt : a.lt (.float x) = true) : ∃ w, Decimal.HasValue x w := by
  cases ha with
  | int i =>
    have hi : 0 ≤ i := by exact_mod_cast hv
    exact Decimal.exists_value_of_intLtFloat hi hlt
  | float hy => exact hy.exists_of_lt (by simpa [Number.lt] using hlt)

end Number

end Annealing
