import Annealing.Proofs.Decimal.Values

/-! # Products with a fraction

Multiplying by a double strictly between zero and one never makes a value greater, and keeps the
order of values.  It makes each finite value less that is above the least normal number; infinity
stays what it is, and a value below that number may stay.

* `HasValue.exists_mul` — the product has a value that is not greater.
* `HasValue.mul_lt` — it is less above the least normal number.
* `HasValue.mul_le_mul` — products are ordered as what is multiplied.
-/

namespace Annealing.Decimal

open Float.Model (UnpackedFloat)

/-- A double strictly between zero and one. -/
structure Fraction (c : Float) (n : Nat) (b : Int) : Prop extends Magnitude c n b where
  ne_zero : n ≠ 0
  lt_one : pairValue n b < 1

variable {x y c : Float} {m n : Nat} {a b : Int} {v w : WithTop ℚ}

/-- What is multiplied by a fraction does not become greater. -/
theorem Fraction.mul_le (hc : Fraction c n b) (m : Nat) (a : Int) :
    pairValue m a * pairValue n b ≤ pairValue m a :=
  mul_le_of_le_one_right (pairValue_nonneg m a) hc.lt_one.le

theorem infinity_mul (hx : x.toModel.unpack = .infinity .positive) (hc : Fraction c n b) :
    (x * c).toModel.unpack = .infinity .positive := by
  change (Float.Model.pack
    (UnpackedFloat.mul .binary64 x.toModel.unpack c.toModel.unpack)).unpack = _
  rw [hx, hc.unpack_eq, ofPair, dif_neg hc.ne_zero]
  exact unpack_pack_infinity .positive

/-- The product with a fraction is nearest to the product of the numbers. -/
theorem Magnitude.exists_mul_fraction (hx : Magnitude x m a) (hc : Fraction c n b) :
    ∃ p d, Magnitude (x * c) p d ∧ Nearest p d (pairValue m a * pairValue n b) :=
  hx.exists_mul hc.toMagnitude hx (hc.mul_le m a)

/-- The product with a fraction has a value that is not greater. -/
theorem HasValue.exists_mul (hx : HasValue x v) (hc : Fraction c n b) :
    ∃ w, HasValue (x * c) w ∧ w ≤ v := by
  cases hx with
  | @finite m a hx =>
    obtain ⟨p, d, hproduct, hnearest⟩ := hx.exists_mul_fraction hc
    refine ⟨_, .finite hproduct, ?_⟩
    rw [WithTop.coe_le_coe]
    exact hnearest.le_of_le hx.canonical (hc.mul_le m a)
  | infinite hx => exact ⟨⊤, .infinite (infinity_mul hx hc), le_rfl⟩

/-- Above the least normal number the product with a fraction is less. -/
theorem HasValue.mul_lt {q : ℚ} (hx : HasValue x q) (hc : Fraction c n b)
    (hnormal : 2 ^ (-1022 : Int) < q) : x * c < x := by
  obtain ⟨m, a, hpair, rfl⟩ := hx.exists_magnitude
  obtain ⟨p, d, hproduct, hnearest⟩ := hpair.exists_mul_fraction hc
  rw [hproduct.lt_iff hpair]
  by_contra hnot
  -- The product falls short by so much that the next lesser pair is nearer to it.
  obtain ⟨m', a', hpred, hnearer⟩ := hpair.canonical.exists_pred hnormal
  have hshort : pairValue m a * pairValue n b ≤ pairValue m a * (1 - 2 ^ (-53 : Int)) :=
    mul_le_mul_of_nonneg_left (hc.canonical.le_of_lt_one hc.lt_one) (pairValue_nonneg m a)
  have hle : pairValue p d ≤ pairValue m a :=
    hnearest.le_of_le hpair.canonical (hc.mul_le m a)
  have hsame : pairValue p d = pairValue m a := hle.antisymm (not_lt.mp hnot)
  have hnear := hnearest m' a' hpred
  rw [hsame] at hnear
  exact hnear.not_gt (hnearer _ hshort)

/-- Products with a fraction are ordered as what is multiplied. -/
theorem HasValue.mul_le_mul (hx : HasValue x v) (hy : HasValue y w) (hc : Fraction c n b)
    (hle : x ≤ y) : x * c ≤ y * c := by
  have hvalues := (hx.le_iff hy).mp hle
  cases hy with
  | infinite hy =>
    obtain ⟨u, hproduct, -⟩ := hx.exists_mul hc
    exact (hproduct.le_iff (.infinite (infinity_mul hy hc))).mpr le_top
  | @finite m' a' hy =>
    cases hx with
    | infinite hx => exact absurd hvalues (by simp)
    | @finite m a hx =>
      rw [WithTop.coe_le_coe] at hvalues
      obtain ⟨p, d, hproduct, hnearest⟩ := hx.exists_mul_fraction hc
      obtain ⟨p', d', hproduct', hnearest'⟩ := hy.exists_mul_fraction hc
      rw [hproduct.le_iff hproduct']
      rcases hvalues.lt_or_eq with hlt | heq
      · apply hnearest.mono hproduct.canonical hproduct'.canonical hnearest'
        exact mul_lt_mul_of_pos_right hlt (pairValue_pos hc.ne_zero b)
      -- Of two nearest pairs the same one is taken, since both doubles have the same bits.
      · obtain ⟨rfl, rfl⟩ := hx.canonical.eq_of_pairValue_eq hy.canonical heq
        have hsame : x * c = y * c := by
          change Float.ofModel (.pack (UnpackedFloat.mul .binary64 x.toModel.unpack _)) =
            Float.ofModel (.pack (UnpackedFloat.mul .binary64 y.toModel.unpack _))
          rw [hx.unpack_eq, hy.unpack_eq]
        rw [hsame] at hproduct
        exact ((hproduct.le_iff hproduct').mp ((hproduct.le_iff hproduct).mpr le_rfl))

end Annealing.Decimal
