import Annealing.Proofs.Decimal.Values
import Annealing.Proofs.Problem.Exact

/-! # Finite doubles as exact numbers

A finite double of either sign is a rational number, `Decimal.exact`.  Comparing it with an integer
compares this number, and taking its integer part cuts off the fraction of this number.

* `intLtFloat_iff_exact`, `floatLtInt_iff_exact` — comparison with integers.
* `exists_truncate`, `exists_ceiling` — the integer part, and the ceiling.
* `natAbs_truncate_lt` — how great an integer part can be.
* `exact_of_unpack` — the number is that of a pair, with a sign.
-/

namespace Annealing.Decimal

open Float.Model.UnpackedFloat (Sign)

/-- A number without its fraction. -/
def towardZero (q : ℚ) : Int :=
  if 0 ≤ q then ⌊q⌋ else ⌈q⌉

namespace Dyadic

variable {d : Dyadic}

theorem int_lt_toRat_iff {i : Int} : (i : ℚ) < d.toRat ↔ i * d.denominator < d.signed := by
  rw [toRat, lt_div_iff₀ d.denominator_pos]
  exact_mod_cast Iff.rfl

theorem toRat_lt_int_iff {i : Int} : d.toRat < i ↔ d.signed < i * d.denominator := by
  rw [toRat, div_lt_iff₀ d.denominator_pos]
  exact_mod_cast Iff.rfl

theorem toRat_nonneg_iff : 0 ≤ d.toRat ↔ 0 ≤ d.signed := by
  have hneg := toRat_lt_int_iff (d := d) (i := 0)
  rw [Int.cast_zero, Int.zero_mul] at hneg
  rw [← not_lt, ← not_lt, hneg]

theorem truncate_eq (d : Dyadic) : d.truncate = towardZero d.toRat := by
  unfold truncate towardZero
  by_cases hsign : 0 ≤ d.signed
  · rw [if_pos (toRat_nonneg_iff.mpr hsign), toRat, Rat.floor_intCast_div_natCast,
      Int.tdiv_eq_ediv_of_nonneg hsign]
  · have hneg : 0 ≤ -d.signed := by omega
    rw [if_neg (toRat_nonneg_iff.not.mpr hsign), toRat, Rat.ceil_intCast_div_natCast,
      ← Int.tdiv_eq_ediv_of_nonneg hneg, Int.neg_tdiv, Int.neg_neg]

theorem natAbs_signed (d : Dyadic) : d.signed.natAbs = d.numerator := by
  unfold signed
  split
  · rw [Int.natAbs_neg, Int.natAbs_natCast]
  · rw [Int.natAbs_natCast]

end Dyadic

variable {x : Float} {i : Int}

theorem isFinite_of_ofInt? (hx : ofInt? i = some x) : x.isFinite = true := by
  dsimp only [ofInt?] at hx
  split at hx
  · rename_i hfinite
    cases hx
    exact hfinite
  · cases hx

theorem exists_dyadic_of_isFinite (hx : x.isFinite = true) : ∃ d, dyadic? x = some d := by
  change x.toModel.unpack.isFinite = true at hx
  unfold dyadic?
  cases hunpack : x.toModel.unpack with
  | zero sign => exact ⟨_, rfl⟩
  | finite sign m e hm => exact ⟨_, rfl⟩
  | infinity sign | notANumber =>
    rw [hunpack] at hx
    cases hx

theorem exact_eq {d : Dyadic} (hd : dyadic? x = some d) : exact x = d.toRat := by
  rw [exact, hd, Option.elim_some]

theorem intLtFloat_iff_exact (hx : x.isFinite = true) : intLtFloat i x = true ↔ i < exact x := by
  obtain ⟨d, hd⟩ := exists_dyadic_of_isFinite hx
  rw [intLtFloat, hd, exact_eq hd, Dyadic.int_lt_toRat_iff, decide_eq_true_iff]

theorem floatLtInt_iff_exact (hx : x.isFinite = true) : floatLtInt x i = true ↔ exact x < i := by
  obtain ⟨d, hd⟩ := exists_dyadic_of_isFinite hx
  rw [floatLtInt, hd, exact_eq hd, Dyadic.toRat_lt_int_iff, decide_eq_true_iff]

/-- The ceiling of a finite double is that of its number. -/
theorem exists_ceiling (hx : x.isFinite = true) :
    ∃ d, dyadic? x = some d ∧ d.ceiling = ⌈exact x⌉ := by
  obtain ⟨d, hd⟩ := exists_dyadic_of_isFinite hx
  exact ⟨d, hd, by rw [d.ceiling_eq, exact_eq hd, Dyadic.toRat]⟩

/-- The integer part of a finite double is its number without the fraction. -/
theorem exists_truncate (hx : x.isFinite = true) :
    ∃ d, dyadic? x = some d ∧ d.truncate = towardZero (exact x) := by
  obtain ⟨d, hd⟩ := exists_dyadic_of_isFinite hx
  exact ⟨d, hd, by rw [d.truncate_eq, exact_eq hd]⟩

/-! ## Signs and pairs -/

/-- A sign as a factor. -/
def signFactor : Sign → ℚ
  | .negative => -1
  | .positive => 1

theorem signFactor_div : ∀ s t : Sign, signFactor (s / t) = signFactor s / signFactor t
  | .negative, .negative => by change (1 : ℚ) = -1 / -1; norm_num
  | .negative, .positive => by change (-1 : ℚ) = -1 / 1; norm_num
  | .positive, .negative => by change (-1 : ℚ) = 1 / -1; norm_num
  | .positive, .positive => by change (1 : ℚ) = 1 / 1; norm_num

theorem abs_signFactor (s : Sign) : |signFactor s| = 1 := by
  cases s <;> simp [signFactor]

theorem exact_of_unpack {s : Sign} {m : Nat} {e : Int} (hunpack : x.toModel.unpack = ofPair s m e) :
    exact x = signFactor s * pairValue m e := by
  by_cases hzero : m = 0
  · subst hzero
    have hd : dyadic? x = some ⟨s == .negative, 0, 0⟩ := by
      rw [dyadic?, hunpack]
      rfl
    rw [exact_eq hd, pairValue_zero, mul_zero]
    simp [Dyadic.toRat, Dyadic.signed, Dyadic.numerator]
  · have hd : dyadic? x = some ⟨s == .negative, m, e⟩ := by
      rw [dyadic?, hunpack, ofPair, dif_neg hzero]
    have hsigned := Dyadic.signed_eq m e
    have hpos := (Dyadic.mk false m e).denominator_pos
    have hvalue : pairValue m e = (Dyadic.mk false m e).toRat := by
      rw [Dyadic.toRat, hsigned, mul_div_cancel_right₀ _ hpos.ne']
    rw [exact_eq hd, hvalue]
    cases s with
    | positive =>
      rw [signFactor, one_mul]
      rfl
    | negative =>
      rw [signFactor, neg_one_mul, Dyadic.toRat, Dyadic.toRat, ← neg_div, ← Int.cast_neg]
      rfl

/-- A finite double is a pair with a sign. -/
theorem exists_pair_of_isFinite (hx : x.isFinite = true) :
    ∃ s m e, Canonical m e ∧ e ≤ 971 ∧ x.toModel.unpack = ofPair s m e := by
  change x.toModel.unpack.isFinite = true at hx
  cases hunpack : x.toModel.unpack with
  | zero s => exact ⟨s, 0, -1074, canonical_zero, by decide, rfl⟩
  | finite s m e hm =>
    obtain ⟨hpair, he⟩ := canonical_of_unpack hunpack
    exact ⟨s, m, e, hpair, he, by rw [ofPair, dif_neg hm.ne']⟩
  | infinity s | notANumber =>
    rw [hunpack] at hx
    cases hx

/-- The integer part of a double has 1024 bits at most.  The power of two is left open, lest it is
    written out. -/
theorem natAbs_truncate_lt {d : Dyadic} (hd : dyadic? x = some d) {k : Nat} (hk : 971 ≤ k) :
    d.truncate.natAbs < 2 ^ 53 * 2 ^ k := by
  have hbounds : d.significand < 2 ^ 53 ∧ d.exponent ≤ 971 := by
    unfold dyadic? at hd
    cases hunpack : x.toModel.unpack with
    | zero sign =>
      simp only [hunpack, Option.some.injEq] at hd
      subst hd
      exact ⟨Nat.two_pow_pos 53, (by decide : (0 : Int) ≤ 971)⟩
    | finite sign m e hm =>
      simp only [hunpack, Option.some.injEq] at hd
      subst hd
      obtain ⟨hpair, he⟩ := canonical_of_unpack hunpack
      exact ⟨hpair.lt, he⟩
    | infinity sign | notANumber => simp [hunpack] at hd
  obtain ⟨hsignificand, hexponent⟩ := hbounds
  have hpower : 2 ^ d.exponent.toNat ≤ 2 ^ k := Nat.pow_le_pow_right Nat.two_pos (by omega)
  calc d.truncate.natAbs = d.signed.natAbs / d.denominator := Int.natAbs_tdiv _ _
    _ ≤ d.numerator := by
      rw [d.natAbs_signed]
      exact Nat.div_le_self _ _
    _ < 2 ^ 53 * 2 ^ k := Nat.mul_lt_mul_of_lt_of_le hsignificand hpower (Nat.two_pow_pos k)

theorem isFinite_of_unpack {s : Sign} {m : Nat} {e : Int}
    (hunpack : x.toModel.unpack = ofPair s m e) : x.isFinite = true := by
  change x.toModel.unpack.isFinite = true
  rw [hunpack, ofPair]
  split <;> rfl

theorem Magnitude.exact_eq {m : Nat} {e : Int} (hx : Magnitude x m e) :
    exact x = pairValue m e := by
  rw [exact_of_unpack hx.unpack_eq, signFactor, one_mul]

end Annealing.Decimal
