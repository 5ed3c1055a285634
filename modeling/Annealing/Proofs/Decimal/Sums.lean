import Annealing.Proofs.Decimal.Doubles

/-! # Sums that start at zero

Weights are added up from zero on.  A sum of zero and a finite double is that double again, as far
as the test for equality goes, which takes zero with a minus sign for zero.

* `SameNumber` — what that test decides.
* `zero_add_beq`, `zero_add_zero_add_beq` — the sum with zero.
-/

namespace Annealing.Decimal

open Float.Model (UnpackedFloat)
open Float.Model.UnpackedFloat (Sign)

/-! ## Equality of numbers -/

/-- Both are zero, with any signs, or they are infinity or a pair with the same sign. -/
inductive SameNumber : UnpackedFloat → UnpackedFloat → Prop
  | zero (s t : Sign) : SameNumber (.zero s) (.zero t)
  | finite (s : Sign) (m : Nat) (e : Int) (hm : 0 < m) :
      SameNumber (.finite s m e hm) (.finite s m e hm)
  | infinity (s : Sign) : SameNumber (.infinity s) (.infinity s)

namespace SameNumber

variable {u v w : UnpackedFloat}

theorem refl (hfinite : u.isFinite = true) : SameNumber u u := by
  cases u with
  | zero s => exact .zero s s
  | finite s m e hm => exact .finite s m e hm
  | infinity s => exact .infinity s
  | notANumber => cases hfinite

theorem symm (huv : SameNumber u v) : SameNumber v u := by
  cases huv with
  | zero s t => exact .zero t s
  | finite s m e hm => exact .finite s m e hm
  | infinity s => exact .infinity s

theorem trans (huv : SameNumber u v) (hvw : SameNumber v w) : SameNumber u w := by
  cases huv with
  | zero s t =>
    cases hvw with
    | zero _ r => exact .zero s r
  | finite s m e hm => exact hvw
  | infinity s => exact hvw

theorem isFinite_eq (huv : SameNumber u v) : u.isFinite = v.isFinite := by
  cases huv <;> rfl

theorem compare_eq (huv : SameNumber u v) : u.compare v = some .eq := by
  cases huv with
  | zero s t => rfl
  | finite s m e hm => cases s <;> simp [UnpackedFloat.compare]
  | infinity s => cases s <;> rfl

theorem of_compare (hcompare : u.compare v = some .eq) : SameNumber u v := by
  cases u with
  | notANumber => cases hcompare
  | infinity s =>
    cases v with
    | infinity t => cases s <;> cases t <;> first | exact .infinity _ | cases hcompare
    | zero t => cases s <;> cases hcompare
    | notANumber => cases s <;> cases hcompare
    | finite t n f hn => cases s <;> cases hcompare
  | zero s =>
    cases v with
    | zero t => exact .zero s t
    | infinity t => cases t <;> cases hcompare
    | notANumber => cases hcompare
    | finite t n f hn => cases t <;> cases hcompare
  | finite s m e hm =>
    cases v with
    | zero t => cases s <;> cases hcompare
    | infinity t => cases s <;> cases t <;> cases hcompare
    | notANumber => cases s <;> cases hcompare
    | finite t n f hn =>
      cases s <;> cases t <;> simp [UnpackedFloat.compare, Ordering.then_eq_eq] at hcompare
      all_goals
        obtain ⟨rfl, rfl⟩ := hcompare
        exact .finite _ _ _ _

end SameNumber

/-! ## Equality of doubles -/

variable {x y z : Float}

theorem beq_iff_sameNumber :
    (x == y) = true ↔ SameNumber x.toModel.unpack y.toModel.unpack := by
  have hbeq : (x == y) = (x.toModel.unpack.compare y.toModel.unpack == some .eq) := rfl
  rw [hbeq, beq_iff_eq]
  exact ⟨.of_compare, SameNumber.compare_eq⟩

theorem beq_self (hx : x.isFinite = true) : (x == x) = true :=
  beq_iff_sameNumber.mpr (.refl hx)

theorem beq_symm (hxy : (x == y) = true) : (y == x) = true :=
  beq_iff_sameNumber.mpr (beq_iff_sameNumber.mp hxy).symm

theorem beq_trans (hxy : (x == y) = true) (hyz : (y == z) = true) : (x == z) = true :=
  beq_iff_sameNumber.mpr ((beq_iff_sameNumber.mp hxy).trans (beq_iff_sameNumber.mp hyz))

/-! ## Sums with zero -/

/-- Adding to zero drops the minus sign of a zero and changes nothing else. -/
theorem sameNumber_zero_add (hx : x.isFinite = true) :
    SameNumber (0 + x).toModel.unpack x.toModel.unpack := by
  have hsum : (0 + x).toModel.unpack =
      (Float.Model.pack (UnpackedFloat.add .binary64 (.zero .positive) x.toModel.unpack)).unpack :=
    rfl
  rw [hsum]
  have hfinite : x.toModel.unpack.isFinite = true := hx
  cases hunpack : x.toModel.unpack with
  | infinity s => simp [hunpack, UnpackedFloat.isFinite] at hfinite
  | notANumber => simp [hunpack, UnpackedFloat.isFinite] at hfinite
  | zero s => cases s <;> exact .zero .positive _
  | finite s m e hm =>
    obtain ⟨hcanonical, hbounded⟩ := canonical_of_unpack hunpack
    have hpair : UnpackedFloat.finite s m e hm = ofPair s m e := by
      rw [ofPair, dif_neg hm.ne']
    have hadd : UnpackedFloat.add .binary64 (.zero .positive) (.finite s m e hm) =
        .finite s m e hm := rfl
    rw [hadd, hpair, unpack_pack_ofPair s hcanonical hbounded, ← hpair]
    exact .finite s m e hm

theorem isFinite_zero_add (hx : x.isFinite = true) : (0 + x).isFinite = true :=
  (sameNumber_zero_add hx).isFinite_eq.trans hx

theorem zero_add_beq (hx : x.isFinite = true) : (0 + x == x) = true :=
  beq_iff_sameNumber.mpr (sameNumber_zero_add hx)

theorem zero_add_zero_add_beq (hx : x.isFinite = true) : (0 + (0 + x) == x) = true :=
  beq_trans (zero_add_beq (isFinite_zero_add hx)) (zero_add_beq hx)

end Annealing.Decimal
