import Annealing.Proofs.Decimal.Rounding

/-! # Doubles as pairs

A finite double without a minus sign is unpacked into a pair, and a canonical pair is packed without
loss.

* `Magnitude` — the double is finite, has no minus sign, and is the number of the pair.
* `Magnitude.lt_iff`, `Magnitude.le_iff` — such doubles are ordered as their numbers.
* `RoundedTo` — the double is nearest to a number, or infinity if that is beyond all doubles.
* `RoundedEven` — and it is the even one of two that are as near.
* `Magnitude.exists_mul` — their product is a nearest double, unless it is beyond all doubles.
* `div_roundedTo` — the quotient of two finite doubles of any signs is rounded in the same way.
-/

namespace Annealing.Decimal

open Float.Model (Format UnpackedFloat)
open Float.Model.UnpackedFloat (Sign packComponents unpackExponent unpackMantissa
  unpackExponent_packComponents unpackMantissa_packComponents unpackSign_packComponents)

/-! ## Unpacking -/

/-- The significand with its leading bit. -/
theorem toNat_leading (m : BitVec 52) : (1#1 ++ m).toNat = 2 ^ 52 + m.toNat := by
  rw [BitVec.toNat_append, ← Nat.shiftLeft_add_eq_or_of_lt m.isLt]
  rfl

theorem exponentBias_eq : (Format.binary64.exponentBias : Int) = 1023 := rfl

/-- What is unpacked is canonical, and its exponent is bounded. -/
theorem canonical_of_unpack {model : Float.Model} {sign : Sign} {m : Nat} {e : Int} {hm : 0 < m}
    (hunpack : model.unpack = .finite sign m e hm) : Canonical m e ∧ e ≤ 971 := by
  unfold Float.Model.unpack UnpackedFloat.unpack at hunpack
  simp only [exponentBias_eq] at hunpack
  set mantissa : BitVec 52 := @unpackMantissa .binary64 model.toBits.toBitVec
  set exponent : BitVec 11 := @unpackExponent .binary64 model.toBits.toBitVec
  have hexponent := exponent.isLt
  have hmantissa := mantissa.isLt
  split at hunpack
  · split at hunpack <;> cases hunpack
  · rename_i hfinite
    have htop : exponent.toNat ≠ 2047 := fun h => hfinite (BitVec.eq_of_toNat_eq h)
    split at hunpack
    · rename_i hzero
      split at hunpack
      · cases hunpack
      -- A subnormal number has the least exponent.
      · simp only [hzero, UnpackedFloat.finite.injEq] at hunpack
        obtain ⟨-, rfl, rfl⟩ := hunpack
        exact ⟨⟨by omega, by decide, .inr (by decide)⟩, by decide⟩
    -- A normal number has all its bits.
    · rename_i hnormal
      have hbottom : exponent.toNat ≠ 0 := fun h => hnormal (BitVec.eq_of_toNat_eq h)
      simp only [toNat_leading, UnpackedFloat.finite.injEq] at hunpack
      obtain ⟨-, rfl, rfl⟩ := hunpack
      exact ⟨⟨by omega, by omega, .inl (by omega)⟩, by omega⟩

/-! ## Packing -/

/-- Components that are packed are unpacked again. -/
theorem unpack_components {exponent : BitVec 11} {mantissa : BitVec 52} (sign : Sign)
    (htop : exponent.toNat ≠ 2047) :
    UnpackedFloat.unpack .binary64 (packComponents .binary64 sign exponent mantissa) =
      if exponent.toNat = 0 then ofPair sign mantissa.toNat (-1074)
      else ofPair sign (2 ^ 52 + mantissa.toNat) (exponent.toNat - 1075) := by
  have hfinite : exponent ≠ -1#11 := fun h => htop (h ▸ rfl)
  unfold UnpackedFloat.unpack ofPair
  simp only [unpackMantissa_packComponents, unpackExponent_packComponents,
    unpackSign_packComponents, Sign.ofBitVec_toBitVec, toNat_leading, exponentBias_eq]
  rw [if_neg hfinite]
  by_cases hzero : exponent = 0#11
  · subst hzero
    by_cases hnone : mantissa = 0#52
    · simp [hnone]
    · have hsome : mantissa.toNat ≠ 0 := fun h => hnone (BitVec.eq_of_toNat_eq h)
      simp [hnone, hsome]
  · have hsome : exponent.toNat ≠ 0 := fun h => hzero (BitVec.eq_of_toNat_eq h)
    simp [hzero, hsome]

theorem unpack_pack_infinity (sign : Sign) :
    (Float.Model.pack (.infinity sign)).unpack = .infinity sign := by
  change UnpackedFloat.unpack .binary64 (packComponents .binary64 sign (-1#11) 0#52) = _
  unfold UnpackedFloat.unpack
  simp only [unpackMantissa_packComponents, unpackExponent_packComponents,
    unpackSign_packComponents, Sign.ofBitVec_toBitVec, if_true]

/-- A canonical pair is packed without loss, unless it is beyond all doubles. -/
theorem unpack_pack_ofPair {m : Nat} {e : Int} (sign : Sign) (hpair : Canonical m e)
    (he : e ≤ 971) : (Float.Model.pack (ofPair sign m e)).unpack = ofPair sign m e := by
  obtain ⟨hlt, hleast, hfull⟩ := hpair
  change UnpackedFloat.unpack .binary64 (UnpackedFloat.pack .binary64 (ofPair sign m e)) = _
  by_cases hzero : m = 0
  · have he : e = -1074 := hfull.resolve_left (by omega)
    subst hzero he
    exact unpack_components sign (by decide)
  · have hlog : m.log2 < 53 := (Nat.log2_lt hzero).mpr hlt
    have hbounded : ¬ 2 ^ 11 ≤ (e + 1023 + (52 : Nat)).toNat + 1 := by omega
    have hpack : UnpackedFloat.pack .binary64 (ofPair sign m e) =
        if m.log2 + 1 = 53 then packComponents .binary64 sign
          (BitVec.ofNat 11 (e + 1023 + (52 : Nat)).toNat) (BitVec.ofNat 52 m)
        else packComponents .binary64 sign 0#11 (BitVec.ofNat 52 m) := by
      rw [ofPair, dif_neg hzero, UnpackedFloat.pack, exponentBias_eq, if_neg hbounded]
      rfl
    rw [hpack]
    split
    -- All bits are in use, and the leading one is left out of what is packed.
    · rename_i hnormal
      have hfull : 2 ^ 52 ≤ m := by
        rw [← (by omega : m.log2 = 52)]
        exact Nat.log2_self_le hzero
      have hmantissa : (BitVec.ofNat 52 m).toNat = m - 2 ^ 52 := by
        rw [BitVec.toNat_ofNat, Nat.mod_eq_sub_mod hfull, Nat.mod_eq_of_lt (by omega)]
      have hexponent :
          (BitVec.ofNat 11 (e + 1023 + (52 : Nat)).toNat).toNat = (e + 1075).toNat := by
        rw [BitVec.toNat_ofNat, Nat.mod_eq_of_lt (by omega)]
        omega
      have hsignificand : 2 ^ 52 + (m - 2 ^ 52) = m := by omega
      have hbias : ((e + 1075).toNat : Int) - 1075 = e := by omega
      rw [unpack_components sign (by omega), if_neg (by omega), hmantissa, hexponent,
        hsignificand, hbias]
    · rename_i hsubnormal
      have hfew : m < 2 ^ 52 := by
        by_contra hnot
        have := (Nat.le_log2 hzero).mpr (Nat.le_of_not_lt hnot)
        omega
      have he : e = -1074 := hfull.resolve_left (by omega)
      have hmantissa : (BitVec.ofNat 52 m).toNat = m := by
        rw [BitVec.toNat_ofNat, Nat.mod_eq_of_lt hfew]
      rw [unpack_components sign (by decide), if_pos (by rfl), hmantissa, he]

/-! ## Magnitudes -/

/-- The double is finite and has no minus sign, and is the number of the pair. -/
structure Magnitude (x : Float) (m : Nat) (e : Int) : Prop where
  canonical : Canonical m e
  bounded : e ≤ 971
  unpack_eq : x.toModel.unpack = ofPair .positive m e

theorem magnitude_of_finite {x : Float} {m : Nat} {e : Int} {hm : 0 < m}
    (hx : x.toModel.unpack = .finite .positive m e hm) : Magnitude x m e := by
  obtain ⟨hcanonical, hbounded⟩ := canonical_of_unpack hx
  refine ⟨hcanonical, hbounded, ?_⟩
  rw [hx, ofPair, dif_neg hm.ne']

/-! ## Order -/

theorem lt_iff_compare {x y : Float} :
    x < y ↔ x.toModel.unpack.compare y.toModel.unpack = some .lt := by
  change decide (x.toModel < y.toModel) = true ↔ _
  rw [decide_eq_true_iff]
  change (x.toModel.unpack.compare y.toModel.unpack == some .lt) = true ↔ _
  rw [beq_iff_eq]

theorem le_iff_compare {x y : Float} :
    x ≤ y ↔ (x.toModel.unpack.compare y.toModel.unpack).any (·.isLE) = true := by
  change decide (x.toModel ≤ y.toModel) = true ↔ _
  rw [decide_eq_true_iff]
  rfl

/-- Doubles that are compared as two values are ordered as the values are. -/
theorem lt_iff_of_compare {α : Type} [LinearOrder α] {x y : Float} {v w : α}
    (hcompare : x.toModel.unpack.compare y.toModel.unpack = some (compare v w)) :
    x < y ↔ v < w := by
  rw [lt_iff_compare, hcompare, Option.some.injEq, compare_lt_iff_lt]

theorem le_iff_of_compare {α : Type} [LinearOrder α] {x y : Float} {v w : α}
    (hcompare : x.toModel.unpack.compare y.toModel.unpack = some (compare v w)) :
    x ≤ y ↔ v ≤ w := by
  rw [le_iff_compare, hcompare, Option.any_some, Ordering.isLE_iff_ne_gt]
  exact compare_gt_iff_gt.not.trans not_lt

theorem beq_iff_of_compare {α : Type} [LinearOrder α] {x y : Float} {v w : α}
    (hcompare : x.toModel.unpack.compare y.toModel.unpack = some (compare v w)) :
    (x == y) = true ↔ v = w := by
  have hbeq : (x == y) = (x.toModel.unpack.compare y.toModel.unpack == some .eq) := rfl
  rw [hbeq, beq_iff_eq, hcompare, Option.some.injEq, compare_eq_iff_eq]

/-- Pairs are compared as their numbers are. -/
theorem compare_ofPair {m n : Nat} {a b : Int} (hm : Canonical m a) (hn : Canonical n b) :
    (ofPair .positive m a).compare (ofPair .positive n b) =
      some (compare (pairValue m a) (pairValue n b)) := by
  by_cases hzero : m = 0
  · subst hzero
    by_cases hzero' : n = 0
    · subst hzero'
      simp [ofPair, UnpackedFloat.compare, pairValue]
    · have hlt : pairValue 0 a < pairValue n b := by
        rw [pairValue_zero]
        exact pairValue_pos hzero' b
      rw [compare_lt_iff_lt.mpr hlt]
      simp [ofPair, hzero', UnpackedFloat.compare]
  · by_cases hzero' : n = 0
    · subst hzero'
      have hgt : pairValue 0 b < pairValue m a := by
        rw [pairValue_zero]
        exact pairValue_pos hzero a
      rw [compare_gt_iff_gt.mpr hgt]
      simp [ofPair, hzero, UnpackedFloat.compare]
    · simp only [ofPair, hzero, hzero', dif_neg, not_false_eq_true, UnpackedFloat.compare]
      congr 1
      rcases lt_trichotomy (pairValue m a) (pairValue n b) with hlt | heq | hgt
      · rw [compare_lt_iff_lt.mpr hlt]
        rcases (hm.lt_iff hn).mp hlt with hexponent | ⟨rfl, hsignificand⟩
        · rw [compare_lt_iff_lt.mpr hexponent]
          rfl
        · rw [compare_eq_iff_eq.mpr rfl, compare_lt_iff_lt.mpr hsignificand]
          rfl
      · obtain ⟨rfl, rfl⟩ := hm.eq_of_pairValue_eq hn heq
        simp
      · rw [compare_gt_iff_gt.mpr hgt]
        rcases (hn.lt_iff hm).mp hgt with hexponent | ⟨rfl, hsignificand⟩
        · rw [compare_gt_iff_gt.mpr hexponent]
          rfl
        · rw [compare_eq_iff_eq.mpr rfl, compare_gt_iff_gt.mpr hsignificand]
          rfl

/-- Magnitudes are compared as their numbers are. -/
theorem Magnitude.compare_eq {x y : Float} {m n : Nat} {a b : Int} (hx : Magnitude x m a)
    (hy : Magnitude y n b) : x.toModel.unpack.compare y.toModel.unpack =
      some (compare (pairValue m a) (pairValue n b)) := by
  rw [hx.unpack_eq, hy.unpack_eq, compare_ofPair hx.canonical hy.canonical]

theorem Magnitude.lt_iff {x y : Float} {m n : Nat} {a b : Int} (hx : Magnitude x m a)
    (hy : Magnitude y n b) : x < y ↔ pairValue m a < pairValue n b :=
  lt_iff_of_compare (hx.compare_eq hy)

theorem Magnitude.le_iff {x y : Float} {m n : Nat} {a b : Int} (hx : Magnitude x m a)
    (hy : Magnitude y n b) : x ≤ y ↔ pairValue m a ≤ pairValue n b :=
  le_iff_of_compare (hx.compare_eq hy)

/-! ## Results of rounding -/

theorem unpack_pack_ofPair_of_lt {m : Nat} {e : Int} (sign : Sign) (hpair : Canonical m e)
    (he : 971 < e) : (Float.Model.pack (ofPair sign m e)).unpack = .infinity sign := by
  have hfull := hpair.full
  have hm : m ≠ 0 := by omega
  have hbeyond : 2 ^ 11 ≤ (e + 1023 + (52 : Nat)).toNat + 1 := by omega
  rw [ofPair, dif_neg hm]
  change UnpackedFloat.unpack .binary64 (UnpackedFloat.pack .binary64 _) = _
  rw [UnpackedFloat.pack, exponentBias_eq, if_pos hbeyond]
  exact unpack_pack_infinity sign

/-- The double is a pair nearest to the number, with a sign, or infinity where that pair is beyond
    all doubles. -/
def RoundedTo (sign : Sign) (x : Float) (v : ℚ) : Prop :=
  ∃ m e, Canonical m e ∧ Nearest m e v ∧
    x.toModel.unpack = (Float.Model.pack (ofPair sign m e)).unpack

/-- As before, and of two pairs that are as near the even one is meant. -/
def RoundedEven (sign : Sign) (x : Float) (v : ℚ) : Prop :=
  ∃ m e, Canonical m e ∧ NearestEven m e v ∧
    x.toModel.unpack = (Float.Model.pack (ofPair sign m e)).unpack

theorem RoundedEven.roundedTo {sign : Sign} {x : Float} {v : ℚ} (hx : RoundedEven sign x v) :
    RoundedTo sign x v := by
  obtain ⟨m, e, hpair, hnearest, hunpack⟩ := hx
  exact ⟨m, e, hpair, hnearest.nearest, hunpack⟩

/-- A pair is rounded to itself. -/
theorem nearestEven_pairValue (m : Nat) (e : Int) : NearestEven m e (pairValue m e) := by
  refine ⟨fun n a _ => ?_, fun n a _ hne hequal => ?_⟩
  · rw [sub_self, abs_zero]
    exact abs_nonneg _
  · rw [sub_self, abs_zero, abs_eq_zero, sub_eq_zero] at hequal
    exact absurd hequal hne

/-- What is nearest to a number is not beyond a double that bounds the number. -/
theorem RoundedTo.exists_of_le {sign : Sign} {x : Float} {v : ℚ} {r : Nat} {c : Int}
    (hx : RoundedTo sign x v) (hbound : Canonical r c) (hc : c ≤ 971) (hle : v ≤ pairValue r c) :
    ∃ m e, Canonical m e ∧ e ≤ 971 ∧ Nearest m e v ∧ x.toModel.unpack = ofPair sign m e := by
  obtain ⟨m, e, hpair, hnearest, hunpack⟩ := hx
  have he : e ≤ c := by
    by_contra hbeyond
    have hbelow := hnearest.le_of_le hbound hle
    exact hbelow.not_gt ((hbound.lt_iff hpair).mpr (.inl (not_le.mp hbeyond)))
  rw [unpack_pack_ofPair sign hpair (he.trans hc)] at hunpack
  exact ⟨m, e, hpair, he.trans hc, hnearest, hunpack⟩

theorem RoundedTo.exists_magnitude {x : Float} {v : ℚ} {r : Nat} {c : Int}
    (hx : RoundedTo .positive x v) (hbound : Canonical r c) (hc : c ≤ 971)
    (hle : v ≤ pairValue r c) : ∃ m e, Magnitude x m e ∧ Nearest m e v := by
  obtain ⟨m, e, hpair, he, hnearest, hunpack⟩ := hx.exists_of_le hbound hc hle
  exact ⟨m, e, ⟨hpair, he, hunpack⟩, hnearest⟩

theorem nearest_zero : Nearest 0 (-1074) 0 := by
  intro m e _
  rw [pairValue_zero, sub_zero, sub_zero, abs_zero]
  exact abs_nonneg _

/-! ## Products -/

theorem Magnitude.mul_roundedTo {x y : Float} {m n : Nat} {a b : Int} (hx : Magnitude x m a)
    (hy : Magnitude y n b) : RoundedTo .positive (x * y) (pairValue m a * pairValue n b) := by
  have hmul : (x * y).toModel.unpack = (Float.Model.pack (UnpackedFloat.mul .binary64
      (ofPair .positive m a) (ofPair .positive n b))).unpack := by
    rw [← hx.unpack_eq, ← hy.unpack_eq]
    rfl
  rw [RoundedTo, hmul]
  by_cases hzero : m = 0 ∨ n = 0
  · have hproduct : pairValue m a * pairValue n b = 0 := by
      rcases hzero with rfl | rfl <;> simp
    have hmul_zero : UnpackedFloat.mul .binary64 (ofPair .positive m a) (ofPair .positive n b) =
        ofPair .positive 0 (-1074) := by
      unfold ofPair
      split <;> split <;> first | rfl | omega
    rw [hmul_zero, hproduct]
    exact ⟨0, -1074, canonical_zero, nearest_zero, rfl⟩
  · obtain ⟨hm, hn⟩ := not_or.mp hzero
    have hmn : m * n ≠ 0 := Nat.mul_ne_zero hm hn
    have hbits : 52 ≤ (m * n).log2 ∨ a + b ≤ -1074 := by
      have hle_left : m ≤ m * n := Nat.le_mul_of_pos_right m (Nat.pos_of_ne_zero hn)
      have hle_right : n ≤ m * n := Nat.le_mul_of_pos_left n (Nat.pos_of_ne_zero hm)
      have hlog : 2 ^ 52 ≤ m * n → 52 ≤ (m * n).log2 := (Nat.le_log2 hmn).mpr
      have hfull := hx.canonical.full
      have hfull' := hy.canonical.full
      omega
    obtain ⟨p, d, hpair, hround, ⟨hnearest, -⟩⟩ := exists_roundWithAccuracy .positive hbits
    rw [← pairValue_mul] at hnearest
    have hmul_pos : UnpackedFloat.mul .binary64 (ofPair .positive m a) (ofPair .positive n b) =
        ofPair .positive p d := by
      rw [← hround]
      simp only [ofPair, hm, hn, dif_neg, not_false_eq_true]
      rfl
    rw [hmul_pos]
    exact ⟨p, d, hpair, hnearest, rfl⟩

/-- The product of two magnitudes is a magnitude that is nearest to the product of the numbers,
    unless it is beyond all doubles. -/
theorem Magnitude.exists_mul {x y z : Float} {m n r : Nat} {a b c : Int} (hx : Magnitude x m a)
    (hy : Magnitude y n b) (hz : Magnitude z r c)
    (hle : pairValue m a * pairValue n b ≤ pairValue r c) :
    ∃ p d, Magnitude (x * y) p d ∧ Nearest p d (pairValue m a * pairValue n b) :=
  (hx.mul_roundedTo hy).exists_magnitude hz.canonical hz.bounded hle

/-! ## Quotients -/

/-- The dividend is shifted until its quotient has enough bits. -/
theorem bits_of_divCore {m n s : Nat} (hm : m ≠ 0) (hn : 0 < n)
    (hs : n.log2 + 53 ≤ m.log2 + s) : 52 ≤ (m * 2 ^ s / n).log2 := by
  have hle : 2 ^ 52 ≤ m * 2 ^ s / n := by
    rw [Nat.le_div_iff_mul_le hn]
    calc 2 ^ 52 * n ≤ 2 ^ 52 * 2 ^ (n.log2 + 1) := Nat.mul_le_mul_left _ Nat.lt_log2_self.le
      _ = 2 ^ (n.log2 + 53) := by rw [← Nat.pow_add, Nat.add_comm, Nat.add_assoc]
      _ ≤ 2 ^ (m.log2 + s) := Nat.pow_le_pow_right (by decide) hs
      _ = 2 ^ m.log2 * 2 ^ s := Nat.pow_add 2 _ _
      _ ≤ m * 2 ^ s := Nat.mul_le_mul_right _ (Nat.log2_self_le hm)
  exact (Nat.le_log2 (by omega)).mpr hle

/-- The quotient of two pairs is rounded to a pair that is nearest to the quotient of their
    numbers, whether they are those of doubles or not. -/
theorem exists_div_ofPair (s t : Sign) {m n : Nat} {a b : Int} (hm : m ≠ 0) (hn : n ≠ 0) :
    ∃ p d, Canonical p d ∧
      UnpackedFloat.div .binary64 (ofPair s m a) (ofPair t n b) = ofPair (s / t) p d ∧
      Nearest p d (pairValue m a / pairValue n b) := by
  have hn_pos := Nat.pos_of_ne_zero hn
  obtain ⟨e, he⟩ : ∃ e, min (a - b) (max ((m.log2 : Int) - n.log2 + (a - b) - 53) (-1074)) = e :=
    ⟨_, rfl⟩
  obtain ⟨k, hk⟩ : ∃ k, (a - b - e).toNat = k := ⟨_, rfl⟩
  have htarget : min (a - b) (Format.binary64.targetExponent
      (Float.Model.totalExponent m a - Float.Model.totalExponent n b)) = e := by
    have hmantissa : (Format.binary64.mantissaBits : Int) = 53 := rfl
    have hleast : Format.binary64.minExponent = -1074 := rfl
    rw [Format.targetExponent, Float.Model.totalExponent, Float.Model.totalExponent, hmantissa,
      hleast]
    omega
  have hbits : 52 ≤ (m * 2 ^ k / n).log2 ∨ e ≤ -1074 := by
    by_cases hleast : e ≤ -1074
    · exact .inr hleast
    · exact .inl (bits_of_divCore hm hn_pos (by omega))
  have hvalue : pairValue (m * 2 ^ k) e / n = pairValue m a / pairValue n b := by
    have hexponent : (2 : ℚ) ^ k * 2 ^ e * 2 ^ b = 2 ^ a := by
      rw [← zpow_natCast, ← zpow_add₀ two_ne_zero, ← zpow_add₀ two_ne_zero]
      congr 1
      omega
    have hn_ne : (n : ℚ) ≠ 0 := by exact_mod_cast hn
    rw [pairValue, pairValue, pairValue, div_eq_div_iff hn_ne (by positivity), ← hexponent]
    push_cast
    ring
  obtain ⟨p, d, hpair, hround, ⟨hnearest, -⟩⟩ :=
    exists_roundWithAccuracy_fraction (s / t) hn_pos hbits
  rw [hvalue] at hnearest
  refine ⟨p, d, hpair, ?_, hnearest⟩
  rw [← hround]
  simp only [ofPair, hm, hn, dif_neg, not_false_eq_true, UnpackedFloat.div,
    UnpackedFloat.divCore, htarget, hk, Nat.shiftLeft_eq]

/-- The quotient of two finite doubles is rounded to the quotient of their numbers, unless that is
    one by zero. -/
theorem div_roundedTo {x y : Float} {s t : Sign} {m n : Nat} {a b : Int}
    (hx : x.toModel.unpack = ofPair s m a) (hy : y.toModel.unpack = ofPair t n b) (hn : n ≠ 0) :
    RoundedTo (s / t) (x / y) (pairValue m a / pairValue n b) := by
  have hdiv : (x / y).toModel.unpack = (Float.Model.pack (UnpackedFloat.div .binary64
      (ofPair s m a) (ofPair t n b))).unpack := by
    rw [← hx, ← hy]
    rfl
  rw [RoundedTo, hdiv]
  by_cases hm : m = 0
  · subst hm
    have hdiv_zero : UnpackedFloat.div .binary64 (ofPair s 0 a) (ofPair t n b) =
        ofPair (s / t) 0 (-1074) := by
      simp only [ofPair, hn, dif_neg, dif_pos, not_false_eq_true]
      rfl
    rw [hdiv_zero, pairValue_zero, zero_div]
    exact ⟨0, -1074, canonical_zero, nearest_zero, rfl⟩
  · obtain ⟨p, d, hpair, hquotient, hnearest⟩ := exists_div_ofPair s t (a := a) (b := b) hm hn
    rw [hquotient]
    exact ⟨p, d, hpair, hnearest, rfl⟩

end Annealing.Decimal
