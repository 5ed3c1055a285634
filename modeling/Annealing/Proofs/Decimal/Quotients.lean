import Annealing.Proofs.Decimal.Errors
import Annealing.Proofs.Decimal.Exact
import Annealing.Proofs.Decimal.Integers
import Annealing.Proofs.Decimal.Sums

/-! # Quotients of numbers

Dividing rounds once, if both numbers are doubles or both are integers; where one is an integer and
the other a double, the integer is rounded first.

* `exact_div` — the quotient of two finite doubles of any signs, and how far off it is.
* `Number.exists_div` — a positive number divided by a greater one: the quotient is a double that is
  not above one, and its logarithm is off by the drift of three roundings at most, unless it is
  below the least normal number.
-/

namespace Annealing

namespace Decimal

open Float.Model (UnpackedFloat)
open Float.Model.UnpackedFloat (Sign)

/-! ## Quotients of doubles -/

/-- The quotient of two finite doubles is near to that of their numbers, unless that is beyond all
    doubles. -/
theorem exact_div {x y : Float} (hx : x.isFinite = true) (hy : y.isFinite = true)
    (hne : exact y ≠ 0) (hbound : |exact x / exact y| ≤ pairValue (2 ^ 53 - 1) 971) :
    (x / y).isFinite = true ∧ |exact (x / y) - exact x / exact y| ≤
      max (|exact x / exact y| * 2 ^ (-53 : Int)) (2 ^ (-1075 : Int)) := by
  obtain ⟨s, m, a, hm, -, hxpair⟩ := exists_pair_of_isFinite hx
  obtain ⟨t, n, b, hn, -, hypair⟩ := exists_pair_of_isFinite hy
  have hsplit : exact x / exact y = signFactor (s / t) * (pairValue m a / pairValue n b) := by
    rw [exact_of_unpack hxpair, exact_of_unpack hypair, signFactor_div, mul_div_mul_comm]
  have hn_ne : n ≠ 0 := by
    rintro rfl
    rw [exact_of_unpack hypair, pairValue_zero, mul_zero] at hne
    exact hne rfl
  have hnonneg : 0 ≤ pairValue m a / pairValue n b :=
    div_nonneg (pairValue_nonneg m a) (pairValue_nonneg n b)
  have habs : |exact x / exact y| = pairValue m a / pairValue n b := by
    rw [hsplit, abs_mul, abs_signFactor, one_mul, abs_of_nonneg hnonneg]
  rw [habs] at hbound ⊢
  obtain ⟨p, d, -, -, hnearest, hunpack⟩ :=
    (div_roundedTo hxpair hypair hn_ne).exists_of_le canonical_greatest le_rfl hbound
  refine ⟨isFinite_of_unpack hunpack, ?_⟩
  rw [hsplit, exact_of_unpack hunpack, ← mul_sub, abs_mul, abs_signFactor, one_mul]
  exact hnearest.abs_sub_le hnonneg

/-! ## Quotients of integers -/

/-- The quotient of two positive integers is rounded once, whatever their sizes are. -/
theorem quotient_roundedTo {i j : Int} (hi : 0 < i) (hj : 0 < j) :
    RoundedTo .positive (quotient i j) (i / j) := by
  obtain ⟨m, rfl⟩ := Int.eq_ofNat_of_zero_le hi.le
  obtain ⟨n, rfl⟩ := Int.eq_ofNat_of_zero_le hj.le
  have hm : m ≠ 0 := by omega
  have hn : n ≠ 0 := by omega
  obtain ⟨p, d, hpair, hquotient, hnearest⟩ :=
    exists_div_ofPair .positive .positive (a := 0) (b := 0) hm hn
  have hexactly : (quotient m n).toModel.unpack = (Float.Model.pack (UnpackedFloat.div .binary64
      (ofPair .positive m 0) (ofPair .positive n 0))).unpack := by
    have hsign : ∀ k : Nat, ¬ (k : Int) < 0 := fun k => by omega
    simp only [quotient, ofPair, hm, hn, hsign, Int.natAbs_natCast, Nat.pos_of_ne_zero,
      if_false, dif_pos, dif_neg, ne_eq, not_false_eq_true]
  refine ⟨p, d, hpair, ?_, ?_⟩
  · simpa [pairValue] using hnearest
  · rw [hexactly, hquotient]
    rfl

/-! ## Bounds on what is rounded -/

theorem RoundedTo.exists_of_isFinite {x : Float} {v : ℚ} (hx : RoundedTo .positive x v)
    (hfinite : x.isFinite = true) : ∃ m e, Magnitude x m e ∧ Nearest m e v := by
  obtain ⟨m, e, hpair, hnearest, hunpack⟩ := hx
  by_cases he : e ≤ 971
  · rw [unpack_pack_ofPair .positive hpair he] at hunpack
    exact ⟨m, e, ⟨hpair, he, hunpack⟩, hnearest⟩
  · rw [unpack_pack_ofPair_of_lt .positive hpair (not_le.mp he)] at hunpack
    change x.toModel.unpack.isFinite = true at hfinite
    rw [hunpack] at hfinite
    cases hfinite

theorem canonical_one : Canonical (2 ^ 52) (-52) :=
  ⟨by decide, by decide, .inl le_rfl⟩

theorem pairValue_one : pairValue (2 ^ 52) (-52) = 1 := by
  rw [pairValue]
  norm_num

/-- What is rounded from a number that is not above one is not above one. -/
theorem RoundedTo.exists_le_one {x : Float} {v : ℚ} (hx : RoundedTo .positive x v) (hv : v ≤ 1) :
    ∃ m e, Magnitude x m e ∧ Nearest m e v ∧ pairValue m e ≤ 1 := by
  rw [← pairValue_one] at hv ⊢
  obtain ⟨m, e, hmagnitude, hnearest⟩ := hx.exists_magnitude canonical_one (by decide) hv
  exact ⟨m, e, hmagnitude, hnearest, hnearest.le_of_le canonical_one hv⟩

theorem canonical_leastNormal : Canonical (2 ^ 52) (-1074) :=
  ⟨by decide, by decide, .inl le_rfl⟩

/-- What is nearest to a number that is not below the least normal number is not below it. -/
theorem Nearest.normal {m : Nat} {e : Int} {v : ℚ} (hnearest : Nearest m e v)
    (hv : 2 ^ (-1022 : Int) ≤ v) : 2 ^ (-1022 : Int) ≤ pairValue m e := by
  rw [← pairValue_leastNormal] at hv ⊢
  exact hnearest.le_of_ge canonical_leastNormal hv

theorem Magnitude.nearest {x : Float} {m : Nat} {e : Int} (_ : Magnitude x m e) :
    Nearest m e (pairValue m e) := by
  intro n a _
  rw [sub_self, abs_zero]
  exact abs_nonneg _

theorem beq_zero_of_exact_ne {y : Float} (hy : exact y ≠ 0) : (y == 0) = false := by
  rw [← Bool.not_eq_true, beq_iff_sameNumber]
  intro hsame
  have hzero : (0 : Float).toModel.unpack = .zero .positive := rfl
  rw [hzero] at hsame
  generalize hunpack : y.toModel.unpack = u at hsame
  cases hsame with
  | zero s t =>
    apply hy
    rw [exact_of_unpack (s := s) (m := 0) (e := -1074) hunpack, pairValue_zero, mul_zero]

/-- A quotient of two magnitudes. -/
theorem Magnitude.exists_div {x y : Float} {m n : Nat} {a b : Int} (hx : Magnitude x m a)
    (hy : Magnitude y n b) (hn : n ≠ 0) (hle : pairValue m a ≤ pairValue n b) :
    ∃ p d, Magnitude (x / y) p d ∧ Nearest p d (pairValue m a / pairValue n b) ∧
      pairValue p d ≤ 1 :=
  (div_roundedTo hx.unpack_eq hy.unpack_eq hn).exists_le_one
    ((div_le_one (pairValue_pos hn b)).mpr hle)

end Decimal

/-! ## Quotients of numbers -/

namespace Number

open Decimal (Magnitude Nearest drift pairValue pairValue_pos pairValue_zero)

variable {a b : Number} {v w : ℚ}

theorem HasValue.eq_int {i : Int} (hi : (Number.int i).HasValue (v : WithTop ℚ)) : v = i := by
  generalize hw : (v : WithTop ℚ) = w at hi
  cases hi
  exact WithTop.coe_inj.mp hw

theorem HasValue.exists_magnitude {x : Float} (hx : (Number.float x).HasValue (v : WithTop ℚ)) :
    ∃ m e, Magnitude x m e ∧ pairValue m e = v := by
  cases hx with
  | float hx => exact hx.exists_magnitude

/-- An integer that is not negative is converted to a double that is rounded from it, if that is
    finite. -/
theorem toFloat?_natCast (n : Nat) : (int n).toFloat? =
    if (Float.ofNat n).isFinite then .ok (Float.ofNat n) else .error .overflow := by
  have hofInt : Float.ofInt (n : Int) = Float.ofNat n := rfl
  rw [toFloat?, Decimal.ofInt?, hofInt]
  by_cases hfinite : (Float.ofNat n).isFinite = true <;> simp [hfinite]

/-- A number that is converted is rounded to its double, which is zero only for zero. -/
theorem HasValue.exists_nearest (ha : a.HasValue (v : WithTop ℚ)) (hv : 0 ≤ v) {x : Float}
    (hx : a.toFloat? = .ok x) :
    ∃ m e, Magnitude x m e ∧ Nearest m e v ∧ (0 < v → m ≠ 0) := by
  cases a with
  | float y =>
    cases hx
    obtain ⟨m, e, hmagnitude, rfl⟩ := ha.exists_magnitude
    refine ⟨m, e, hmagnitude, hmagnitude.nearest, ?_⟩
    rintro hpos rfl
    simp at hpos
  | int i =>
    obtain rfl := ha.eq_int
    obtain ⟨n, rfl⟩ := Int.eq_ofNat_of_zero_le (by exact_mod_cast hv)
    rw [toFloat?_natCast] at hx
    by_cases hfinite : (Float.ofNat n).isFinite = true
    · rw [if_pos hfinite, Except.ok.injEq] at hx
      subst hx
      obtain ⟨m, e, hmagnitude, hnearest⟩ :=
        (Decimal.ofNat_roundedTo n).exists_of_isFinite hfinite
      refine ⟨m, e, hmagnitude, hnearest, ?_⟩
      rintro hpos rfl
      have hone : (1 : ℚ) ≤ n := by exact_mod_cast hpos
      have hsmall : (2 : ℚ) ^ (-1022 : Int) ≤ 1 := zpow_le_one_of_nonpos₀ one_le_two (by decide)
      have hnormal := hnearest.normal (hsmall.trans hone)
      rw [pairValue_zero] at hnormal
      exact absurd hnormal (not_le.mpr (by positivity))
    · rw [if_neg hfinite] at hx
      cases hx

/-- A number that is not above a double is converted to one. -/
theorem HasValue.exists_toFloat (ha : a.HasValue (v : WithTop ℚ)) (hv : 0 ≤ v) {y : Float}
    {n : Nat} {e : Int} (hy : Magnitude y n e) (hle : v ≤ pairValue n e) :
    ∃ x, a.toFloat? = .ok x := by
  cases a with
  | float x => exact ⟨x, rfl⟩
  | int i =>
    obtain rfl := ha.eq_int
    obtain ⟨k, rfl⟩ := Int.eq_ofNat_of_zero_le (by exact_mod_cast hv)
    obtain ⟨p, d, hmagnitude, -⟩ :=
      (Decimal.ofNat_roundedTo k).exists_magnitude hy.canonical hy.bounded hle
    rw [toFloat?_natCast, if_pos hmagnitude.isFinite]
    exact ⟨_, rfl⟩

/-- Where both numbers are converted before they are divided, the quotient is that of the
    doubles. -/
theorem div_of_toFloat {x y : Float} (hx : a.toFloat? = .ok x) (hy : b.toFloat? = .ok y)
    (hzero : (y == 0) = false) (hmixed : ∀ i j, ¬ (a = int i ∧ b = int j)) :
    a.div b = .ok (x / y) := by
  have hdiv : a.div b = do
      let x ← a.toFloat?
      let y ← b.toFloat?
      if y == 0 then .error .divisionByZero else return x / y := by
    cases a with
    | float x => rfl
    | int i =>
      cases b with
      | float y => rfl
      | int j => exact absurd ⟨rfl, rfl⟩ (hmixed i j)
  simp [hdiv, hx, hy, hzero, bind, Except.bind, pure, Except.pure]

/-- A positive number is divided by a greater one that can be converted.  Up to three roundings come
    together: of either number, and of the quotient. -/
theorem exists_div (ha : a.HasValue (v : WithTop ℚ)) (hb : b.HasValue (w : WithTop ℚ)) (hv : 0 < v)
    (hlt : v < w) {y : Float} (hy : b.toFloat? = .ok y) :
    ∃ x m e, a.div b = .ok x ∧ Magnitude x m e ∧ pairValue m e ≤ 1 ∧
      (2 ^ (-1022 : Int) ≤ v → 2 ^ (-1022 : Int) ≤ pairValue m e →
        |Real.log (pairValue m e) - (Real.log v - Real.log w)| ≤ 3 * drift) := by
  have hw : 0 < w := hv.trans hlt
  have hdrift := Decimal.drift_bounds.1
  have hlog : Real.log (v / w) = Real.log v - Real.log w :=
    Real.log_div (by exact_mod_cast hv.ne') (by exact_mod_cast hw.ne')
  by_cases hints : ∃ i j, a = int i ∧ b = int j
  -- Two integers are divided at once.
  · obtain ⟨i, j, rfl, rfl⟩ := hints
    obtain rfl := ha.eq_int
    obtain rfl := hb.eq_int
    have hi : 0 < i := by exact_mod_cast hv
    have hj : 0 < j := by exact_mod_cast hw
    obtain ⟨m, e, hmagnitude, hnearest, hone⟩ :=
      (Decimal.quotient_roundedTo hi hj).exists_le_one ((div_le_one hw).mpr hlt.le)
    refine ⟨_, m, e, ?_, hmagnitude, hone, fun _ hnormal => ?_⟩
    · simp [div, hj.ne', hmagnitude.isFinite]
    · have hnear := hnearest.abs_log_sub_le (div_pos hv hw) hnormal
      push_cast at hnear hlog ⊢
      rw [← hlog]
      linarith
  · obtain ⟨n, f, hymagnitude, hynearest, hn⟩ := hb.exists_nearest hw.le hy
    have hn := hn hw
    obtain ⟨x, hx⟩ : ∃ x, a.toFloat? = .ok x := by
      cases a with
      | float x => exact ⟨x, rfl⟩
      | int i =>
        cases b with
        | int j => exact absurd ⟨i, j, rfl, rfl⟩ hints
        | float z =>
          obtain ⟨n, f, hz, rfl⟩ := hb.exists_magnitude
          exact ha.exists_toFloat hv.le hz hlt.le
    obtain ⟨m, e, hxmagnitude, hxnearest, hm⟩ := ha.exists_nearest hv.le hx
    have hm := hm hv
    have hzero : (y == 0) = false := by
      apply Decimal.beq_zero_of_exact_ne
      rw [hymagnitude.exact_eq]
      exact (pairValue_pos hn f).ne'
    obtain ⟨p, d, hmagnitude, hnearest, hone⟩ := hxmagnitude.exists_div hymagnitude hn
      (hxnearest.mono hxmagnitude.canonical hymagnitude.canonical hynearest hlt)
    refine ⟨_, p, d, div_of_toFloat hx hy hzero
      fun i j h => hints ⟨i, j, h⟩, hmagnitude, hone, fun hleast hnormal => ?_⟩
    have hxpos := pairValue_pos hm e
    have hypos := pairValue_pos hn f
    have hquotient := hnearest.abs_log_sub_le (div_pos hxpos hypos) hnormal
    have hdividend := hxnearest.abs_log_sub_le hv (hxnearest.normal hleast)
    have hdivisor := hynearest.abs_log_sub_le hw (hynearest.normal (hleast.trans hlt.le))
    have hsplit : Real.log ((pairValue m e / pairValue n f : ℚ) : ℝ) =
        Real.log (pairValue m e) - Real.log (pairValue n f) := by
      rw [Rat.cast_div]
      exact Real.log_div (by exact_mod_cast hxpos.ne') (by exact_mod_cast hypos.ne')
    rw [hsplit] at hquotient
    rw [abs_le] at *
    constructor <;> linarith

end Number

end Annealing
