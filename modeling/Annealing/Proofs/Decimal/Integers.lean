import Annealing.Proofs.Decimal.Values

/-! # Integers as doubles

An integer that is not negative is rounded to the double that is nearest to it, or to infinity if it
is beyond all doubles.  Small integers and great ones are converted in different ways: the first are
doubles themselves, and the others keep above the first.

* `exists_magnitude_ofNat`, `exists_value_ofNat_of_le` — the doubles of small integers and of great
  ones.
* `ofNat_roundedEven` — both are nearest doubles, unless they are infinite.
* `RoundedEven.isFinite_iff` — a number is rounded to infinity from `overflowBound` on.
* `ofInt?_eq_none_iff` — which integers have no double.
* `Number.exists_value_of_toFloat?` — the double of a number above zero has a value.
-/

namespace Annealing

namespace Decimal

open Float.Model (Format UnpackedFloat totalExponent)
open Float.Model.UnpackedFloat (roundWithAccuracy)

/-! ## Rounding -/

theorem pairValue_shift (n k : Nat) : pairValue (n * 2 ^ k) (-k) = n := by
  have hpow : (2 : ℚ) ^ k ≠ 0 := by positivity
  rw [pairValue, zpow_neg, zpow_natCast]
  push_cast
  field_simp

/-- A natural number with enough bits put after it is rounded to a pair that is nearest to it. -/
theorem exists_roundWithAccuracy_shift {n k : Nat} (hn : n ≠ 0) (hk : 52 ≤ n.log2 + k) :
    ∃ m e, Canonical m e ∧
      roundWithAccuracy .binary64 .positive (n * 2 ^ k) (-k) .exact = ofPair .positive m e ∧
      NearestEven m e n := by
  have hshift : n * 2 ^ k ≠ 0 := Nat.mul_ne_zero hn (Nat.two_pow_pos k).ne'
  have hbits : 52 ≤ (n * 2 ^ k).log2 := by
    rw [Nat.le_log2 hshift]
    calc 2 ^ 52 ≤ 2 ^ (n.log2 + k) := Nat.pow_le_pow_right (by decide) hk
      _ = 2 ^ n.log2 * 2 ^ k := Nat.pow_add 2 _ _
      _ ≤ n * 2 ^ k := Nat.mul_le_mul_right _ (Nat.log2_self_le hn)
  obtain ⟨m, e, hpair, hround, hnearest⟩ := exists_roundWithAccuracy .positive (.inl hbits)
  rw [pairValue_shift] at hnearest
  exact ⟨m, e, hpair, hround, hnearest⟩

theorem exists_ofNat {n : Nat} (hn : n ≠ 0) :
    ∃ m e, Canonical m e ∧ UnpackedFloat.ofNat .binary64 n = ofPair .positive m e ∧
      NearestEven m e n := by
  obtain ⟨m, e, hpair, hround, hnearest⟩ :=
    exists_normalize (i := n) (by exact_mod_cast hn) 0 .positive
  rw [if_neg (by omega)] at hround
  exact ⟨m, e, hpair, hround, by simpa [pairValue] using hnearest⟩

/-! ## Small integers -/

/-- A natural number of at most 53 bits is the number of a pair. -/
theorem canonical_shift {n : Nat} (hn : n ≠ 0) (hlog : n.log2 ≤ 52) :
    Canonical (n * 2 ^ (52 - n.log2)) (-(52 - n.log2 : Nat)) := by
  have hsum : n.log2 + (52 - n.log2) = 52 := Nat.add_sub_cancel' hlog
  refine ⟨?_, by omega, .inl ?_⟩
  · calc n * 2 ^ (52 - n.log2) < 2 ^ (n.log2 + 1) * 2 ^ (52 - n.log2) :=
        Nat.mul_lt_mul_of_pos_right Nat.lt_log2_self (Nat.two_pow_pos _)
      _ = 2 ^ 53 := by rw [← Nat.pow_add, Nat.add_right_comm, hsum]
  · calc 2 ^ 52 = 2 ^ n.log2 * 2 ^ (52 - n.log2) := by rw [← Nat.pow_add, hsum]
      _ ≤ n * 2 ^ (52 - n.log2) := Nat.mul_le_mul_right _ (Nat.log2_self_le hn)

theorem magnitude_toFloat {n : Nat} (hn : n < 2 ^ 53) :
    ∃ m e, Magnitude n.toUInt64.toFloat m e ∧ pairValue m e = n := by
  have hunpack : n.toUInt64.toFloat.toModel.unpack =
      (Float.Model.pack (UnpackedFloat.ofNat .binary64 n.toUInt64.toNat)).unpack := rfl
  have hsame : n.toUInt64.toNat = n := by
    change (BitVec.ofNat 64 n).toNat = n
    rw [BitVec.toNat_ofNat, Nat.mod_eq_of_lt (by omega)]
  rw [hsame] at hunpack
  by_cases hzero : n = 0
  · subst hzero
    exact ⟨0, -1074, ⟨canonical_zero, by decide, by rw [hunpack]; rfl⟩, by simp⟩
  · have hlog : n.log2 ≤ 52 := Nat.le_of_lt_succ ((Nat.log2_lt hzero).mpr hn)
    have hself := canonical_shift hzero hlog
    obtain ⟨m, e, hpair, hround, hnearest⟩ := exists_ofNat hzero
    rw [← pairValue_shift n (52 - n.log2)] at hnearest
    obtain ⟨rfl, rfl⟩ := hpair.eq_of_pairValue_eq hself (hnearest.nearest.eq hself)
    refine ⟨_, _, ⟨hself, by omega, ?_⟩, pairValue_shift n _⟩
    rw [hunpack, hround, unpack_pack_ofPair .positive hself (by omega)]

theorem unpack_one : (Float.ofBits 0x3FF0000000000000).toModel.unpack =
    .finite .positive (2 ^ 52) (-52) (by decide) := by
  rfl

/-- A small integer is a double itself, although it is multiplied by one. -/
theorem exists_magnitude_ofNat {n : Nat} (hn : n < 2 ^ 53) :
    ∃ m e, Magnitude (Float.ofNat n) m e ∧ pairValue m e = n := by
  obtain ⟨m, e, hmagnitude, hvalue⟩ := magnitude_toFloat hn
  have hone : pairValue (2 ^ 52) (-52) = 1 := by
    rw [pairValue]
    norm_num
  have hofNat : Float.ofNat n = n.toUInt64.toFloat * Float.ofBits 0x3FF0000000000000 := by
    change Float.ofScientific n false 0 = _
    rw [Float.ofScientific, dif_pos ⟨hn, by decide⟩]
    rfl
  obtain ⟨p, d, hproduct, hnearest⟩ := hmagnitude.exists_mul (magnitude_of_finite unpack_one)
    hmagnitude (by rw [hone, mul_one])
  rw [hone, mul_one] at hnearest
  rw [hofNat]
  exact ⟨p, d, hproduct, (hnearest.eq hmagnitude.canonical).trans hvalue⟩

/-! ## Great integers -/

/-- A great integer is multiplied by the zeroth power of ten, and rounded then. -/
theorem unpack_ofNat {n : Nat} (hn : 2 ^ 53 ≤ n) :
    (Float.ofNat n).toModel.unpack = (Float.Model.pack
      (roundWithAccuracy .binary64 .positive (n * 2 ^ 53) (-(53 : Nat)) .exact)).unpack := by
  have hzero : n ≠ 0 := by omega
  have hleast : (0 : Int) < 2 ^ Format.binary64.exponentBits + n.log2 := by positivity
  change (Float.ofScientific n false 0).toModel.unpack = _
  rw [Float.ofScientific, dif_neg (by omega)]
  change (Float.Model.pack (UnpackedFloat.ofScientific .binary64 n 0)).unpack = _
  rw [UnpackedFloat.ofScientific, dif_neg hzero, if_neg (by decide), if_neg (by omega),
    if_pos le_rfl]
  simp only [UnpackedFloat.mul, Nat.shiftLeft_eq, Int.toNat_zero, Nat.pow_zero, Nat.mul_one]
  rfl

/-- A natural number is rounded to a nearest double, or to infinity. -/
theorem ofNat_roundedEven (n : Nat) : RoundedEven .positive (Float.ofNat n) n := by
  by_cases hn : n < 2 ^ 53
  · obtain ⟨m, e, hmagnitude, hvalue⟩ := exists_magnitude_ofNat hn
    rw [← hvalue]
    refine ⟨m, e, hmagnitude.canonical, nearestEven_pairValue m e, ?_⟩
    rw [hmagnitude.unpack_eq, unpack_pack_ofPair .positive hmagnitude.canonical hmagnitude.bounded]
  · obtain ⟨m, e, hpair, hround, hnearest⟩ :=
      exists_roundWithAccuracy_shift (n := n) (k := 53) (by omega) (by omega)
    refine ⟨m, e, hpair, hnearest, ?_⟩
    rw [unpack_ofNat (Nat.le_of_not_lt hn), hround]

theorem ofNat_roundedTo (n : Nat) : RoundedTo .positive (Float.ofNat n) n :=
  (ofNat_roundedEven n).roundedTo

/-- What is rounded to a nearest double, or to infinity, has a value. -/
theorem RoundedTo.exists_value {x : Float} {v : ℚ} (hx : RoundedTo .positive x v) :
    ∃ w, HasValue x w := by
  obtain ⟨m, e, hpair, -, hunpack⟩ := hx
  by_cases he : e ≤ 971
  · rw [unpack_pack_ofPair .positive hpair he] at hunpack
    exact ⟨_, .finite ⟨hpair, he, hunpack⟩⟩
  · rw [unpack_pack_ofPair_of_lt .positive hpair (not_le.mp he)] at hunpack
    exact ⟨⊤, .infinite hunpack⟩

/-- A great integer is not rounded to a small one. -/
theorem exists_value_ofNat_of_le {n : Nat} (hn : 2 ^ 53 ≤ n) :
    ∃ v, HasValue (Float.ofNat n) v ∧ ((2 ^ 53 : ℚ) : WithTop ℚ) ≤ v := by
  obtain ⟨m, e, hpair, hnearest, hunpack⟩ := ofNat_roundedTo n
  by_cases he : e ≤ 971
  · rw [unpack_pack_ofPair .positive hpair he] at hunpack
    refine ⟨_, .finite ⟨hpair, he, hunpack⟩, ?_⟩
    have hbound : pairValue (2 ^ 52) 1 = 2 ^ 53 := by
      rw [pairValue]
      norm_num
    have hle : pairValue (2 ^ 52) 1 ≤ (n : ℚ) := by
      rw [hbound]
      exact_mod_cast hn
    rw [← hbound]
    exact WithTop.coe_le_coe.mpr
      (hnearest.le_of_ge ⟨by decide, by decide, .inl le_rfl⟩ hle)
  · rw [unpack_pack_ofPair_of_lt .positive hpair (not_le.mp he)] at hunpack
    exact ⟨⊤, .infinite hunpack, le_top⟩

/-! ## Numbers beyond all doubles -/

/-- The middle between the greatest double and the power of two that comes after it.  A number that
    is not below it is rounded to infinity. -/
@[irreducible] def overflowBound : Nat :=
  (2 ^ 54 - 1) * 2 ^ 970

theorem canonical_greatest : Canonical (2 ^ 53 - 1) 971 :=
  ⟨by decide, by decide, .inl (by decide)⟩

theorem canonical_beyond : Canonical (2 ^ 52) 972 :=
  ⟨by decide, by decide, .inl le_rfl⟩

theorem overflowBound_middle :
    pairValue (2 ^ 53 - 1) 971 + pairValue (2 ^ 52) 972 = 2 * overflowBound := by
  have hbound : (overflowBound : ℚ) = (2 ^ 54 - 1) * 2 ^ (970 : Int) := by
    unfold overflowBound
    rw [Nat.cast_mul, Nat.cast_pow, Nat.cast_two, ← zpow_natCast]
    congr 1
    norm_num
  have hgreatest : (2 : ℚ) ^ (971 : Int) = 2 * 2 ^ (970 : Int) :=
    zpow_one_add₀ two_ne_zero 970
  have hbeyond : (2 : ℚ) ^ (972 : Int) = 2 * 2 ^ (971 : Int) :=
    zpow_one_add₀ two_ne_zero 971
  rw [pairValue, pairValue, hbeyond, hgreatest, hbound]
  generalize (2 : ℚ) ^ (970 : Int) = step
  norm_num
  ring

theorem Canonical.le_greatest {m : Nat} {e : Int} (hpair : Canonical m e) (he : e ≤ 971) :
    pairValue m e ≤ pairValue (2 ^ 53 - 1) 971 := by
  rw [← not_lt, canonical_greatest.lt_iff hpair]
  have := hpair.lt
  omega

/-- What is rounded is a double just if it is below the middle. -/
theorem NearestEven.bounded_iff {m : Nat} {e : Int} {v : ℚ} (hpair : Canonical m e)
    (hnearest : NearestEven m e v) : e ≤ 971 ↔ v < overflowBound := by
  have hmiddle := overflowBound_middle
  have hgap : pairValue (2 ^ 53 - 1) 971 < pairValue (2 ^ 52) 972 :=
    (canonical_greatest.lt_iff canonical_beyond).mpr (.inl (by decide))
  constructor
  · intro he
    by_contra hnot
    have hle := hpair.le_greatest he
    have hnear := hnearest.nearest _ _ canonical_beyond
    rcases (not_lt.mp hnot).lt_or_eq with habove | htie
    · exact hnear.not_gt (nearer_of_above_middle (hle.trans_lt hgap) (by linarith))
    -- In the middle the greatest double would have to be even.
    · have hbeyond : |pairValue (2 ^ 52) 972 - v| = pairValue (2 ^ 52) 972 - v :=
        abs_of_pos (by linarith)
      have hbelow : |pairValue m e - v| = v - pairValue m e := by
        rw [abs_sub_comm]
        exact abs_of_pos (by linarith)
      rw [hbeyond, hbelow] at hnear
      have hgreatest : pairValue m e = pairValue (2 ^ 53 - 1) 971 := by linarith
      have heven := hnearest.even _ _ canonical_beyond (hle.trans_lt hgap).ne'
        (by rw [hbeyond, hbelow]; linarith)
      obtain ⟨rfl, -⟩ := hpair.eq_of_pairValue_eq canonical_greatest hgreatest
      exact absurd heven (by decide)
  · intro hlt
    by_contra hnot
    have hle : pairValue (2 ^ 52) 972 ≤ pairValue m e := by
      rw [← not_lt, hpair.lt_iff canonical_beyond]
      have := hpair.full
      omega
    exact (hnearest.nearest _ _ canonical_greatest).not_gt
      (nearer_of_below_middle (hgap.trans_le hle) (by linarith))

/-- What is rounded to the nearest double is finite just if it is below the middle. -/
theorem RoundedEven.isFinite_iff {s : UnpackedFloat.Sign} {x : Float} {v : ℚ}
    (hx : RoundedEven s x v) : x.isFinite = true ↔ v < overflowBound := by
  obtain ⟨m, e, hpair, hnearest, hunpack⟩ := hx
  rw [← hnearest.bounded_iff hpair]
  change x.toModel.unpack.isFinite = true ↔ _
  by_cases he : e ≤ 971
  · rw [hunpack, unpack_pack_ofPair s hpair he, ofPair]
    refine iff_of_true ?_ he
    split <;> rfl
  · rw [hunpack, unpack_pack_ofPair_of_lt s hpair (not_le.mp he)]
    exact iff_of_false Bool.false_ne_true he

theorem isFinite_ofNat_iff {n : Nat} : (Float.ofNat n).isFinite = true ↔ n < overflowBound := by
  rw [(ofNat_roundedEven n).isFinite_iff]
  exact Nat.cast_lt

/-- A change of sign leaves a double finite or not. -/
theorem isFinite_neg (x : Float) : (-x).isFinite = x.isFinite := by
  change (Float.Model.pack x.toModel.unpack.neg).unpack.isFinite = x.toModel.unpack.isFinite
  cases hunpack : x.toModel.unpack with
  | notANumber => rfl
  | zero s => cases s <;> rfl
  | infinity s => cases s <;> rfl
  | finite s m e hm =>
    obtain ⟨hcanonical, hbounded⟩ := canonical_of_unpack hunpack
    have hneg : (UnpackedFloat.finite s m e hm).neg = ofPair (-s) m e := by
      rw [ofPair, dif_neg hm.ne']
      rfl
    rw [hneg, unpack_pack_ofPair _ hcanonical hbounded, ofPair, dif_neg hm.ne']
    rfl

theorem ofInt?_eq_none_iff {i : Int} : ofInt? i = none ↔ overflowBound ≤ i.natAbs := by
  have hfinite : (Float.ofInt i).isFinite = true ↔ i.natAbs < overflowBound := by
    cases i with
    | ofNat n => exact isFinite_ofNat_iff
    | negSucc n =>
      have hneg : Float.ofInt (.negSucc n) = -(Float.ofNat (n + 1)) := rfl
      rw [hneg, isFinite_neg]
      exact isFinite_ofNat_iff
  rw [ofInt?, ← not_lt, ← hfinite]
  by_cases h : (Float.ofInt i).isFinite = true <;> simp [h]

end Decimal

/-! ## Numbers as doubles -/

/-- A number above zero is converted to a double that has a value, or not at all.  The double of an
    integer is finite. -/
theorem Number.exists_value_of_toFloat? {a : Number} (hpos : (Number.int 0).lt a = true) {x : Float}
    (hx : a.toFloat? = .ok x) :
    ∃ v, Decimal.HasValue x v ∧ ∀ i, a = .int i → x.isFinite = true := by
  cases a with
  | float y =>
    cases hx
    obtain ⟨v, hv⟩ := (HasValue.int 0).exists_of_lt le_rfl hpos
    exact ⟨v, hv, fun _ h => by cases h⟩
  | int i =>
    simp only [Number.lt, decide_eq_true_eq] at hpos
    obtain ⟨n, rfl⟩ := Int.eq_ofNat_of_zero_le hpos.le
    obtain ⟨v, hv⟩ := (Decimal.ofNat_roundedTo n).exists_value
    have hofInt : Float.ofInt (n : Int) = Float.ofNat n := rfl
    by_cases hfinite : (Float.ofNat n).isFinite = true
    · simp only [toFloat?, Decimal.ofInt?, hofInt, hfinite, if_true, Except.ok.injEq] at hx
      subst hx
      exact ⟨v, hv, fun _ _ => hfinite⟩
    · simp [toFloat?, Decimal.ofInt?, hofInt, hfinite] at hx

end Annealing
