import Annealing.Proofs.Decimal.Overflow

/-! # Factors of zero and one

A bit that is a factor of a double leaves it alone or makes zero of it, and of an infinity it makes
what is no number.  So a sum of doubles with such factors is the sum of those whose factor is one,
unless it is no number at all.

* `eq_of_unpack_eq` — a double is known by what it is unpacked into.
* `float_mul_comm`, `float_one_mul`, `unpack_zero_mul`, `isNaN_zero_mul` — the factors.
* `add_of_zero`, `ne_negativeZero_add` — what a zero of either sign adds to a sum.
* `Gated`, `foldl_gated`, `isNaN_foldl` — a sum with factors, and the same sum without.
-/

namespace Annealing.Decimal

open Float.Model (Format UnpackedFloat)
open Float.Model.UnpackedFloat (Sign packComponents unpackExponent unpackMantissa unpackSign
  unpackExponent_packComponents unpackMantissa_packComponents)

/-! ## Doubles are what they are unpacked into -/

theorem toBitVec_ofBitVec (b : BitVec 1) : (Sign.ofBitVec b).toBitVec = b := by
  rcases BitVec.eq_zero_or_eq_one b with rfl | rfl <;> rfl

theorem packComponents_unpack (b : BitVec 64) :
    packComponents .binary64 (Sign.ofBitVec (@unpackSign .binary64 b)) (@unpackExponent .binary64 b)
      (@unpackMantissa .binary64 b) = b := by
  simp only [packComponents, toBitVec_ofBitVec, unpackSign, unpackExponent, unpackMantissa]
  change b.extractLsb' 63 1 ++ b.extractLsb' 52 11 ++ b.extractLsb' 0 52 = b
  rw [BitVec.extractLsb'_append_extractLsb'_eq_extractLsb' (by rfl),
    BitVec.extractLsb'_append_extractLsb'_eq_extractLsb' (by rfl), BitVec.extractLsb'_eq_self]

/-- Components of a number with all of its bits in use. -/
theorem pack_normal (sign : Sign) {exponent : BitVec 11} {mantissa : BitVec 52}
    (htop : exponent.toNat ≠ 2047) (hbottom : exponent.toNat ≠ 0) :
    UnpackedFloat.pack .binary64 (ofPair sign (2 ^ 52 + mantissa.toNat) (exponent.toNat - 1075)) =
      packComponents .binary64 sign exponent mantissa := by
  have hexponent := exponent.isLt
  have hmantissa := mantissa.isLt
  have hlog : (2 ^ 52 + mantissa.toNat).log2 = 52 :=
    (Nat.log2_eq_iff (by omega)).mpr ⟨by omega, by omega⟩
  have hbias : ((exponent.toNat : Int) - 1075 + 1023 + (52 : Nat)).toNat = exponent.toNat := by
    omega
  have hleading : BitVec.ofNat 52 (2 ^ 52 + mantissa.toNat) = mantissa := by
    apply BitVec.eq_of_toNat_eq
    rw [BitVec.toNat_ofNat, Nat.add_mod_left, Nat.mod_eq_of_lt hmantissa]
  rw [ofPair, dif_neg (by omega), UnpackedFloat.pack, exponentBias_eq]
  simp only [hlog]
  change (if 2 ^ 11 ≤ ((exponent.toNat : Int) - 1075 + 1023 + (52 : Nat)).toNat + 1 then _
    else packComponents .binary64 sign
      (BitVec.ofNat 11 ((exponent.toNat : Int) - 1075 + 1023 + (52 : Nat)).toNat)
      (BitVec.ofNat 52 (2 ^ 52 + mantissa.toNat))) = _
  rw [hbias, if_neg (by omega), hleading, BitVec.ofNat_toNat, BitVec.setWidth_eq]

theorem pack_subnormal (sign : Sign) {mantissa : BitVec 52} :
    UnpackedFloat.pack .binary64 (ofPair sign mantissa.toNat (-1074)) =
      packComponents .binary64 sign 0#11 mantissa := by
  by_cases hzero : mantissa.toNat = 0
  · obtain rfl : mantissa = 0#52 := BitVec.eq_of_toNat_eq hzero
    rfl
  · have hlog : mantissa.toNat.log2 < 52 := (Nat.log2_lt hzero).mpr mantissa.isLt
    rw [ofPair, dif_neg hzero, UnpackedFloat.pack, exponentBias_eq]
    change (if 2 ^ 11 ≤ _ then _ else if mantissa.toNat.log2 + 1 = 53 then _
      else packComponents .binary64 sign 0#11 (BitVec.ofNat 52 mantissa.toNat)) = _
    rw [if_neg (by decide), if_neg (by omega), BitVec.ofNat_toNat, BitVec.setWidth_eq]

/-- Components are packed again as they were, if they are those of the one double that is no
    number or of any that is. -/
theorem pack_unpack_components (sign : Sign) {exponent : BitVec 11} {mantissa : BitVec 52}
    (hvalid : Format.binary64.Valid (packComponents .binary64 sign exponent mantissa)) :
    UnpackedFloat.pack .binary64
        (UnpackedFloat.unpack .binary64 (packComponents .binary64 sign exponent mantissa)) =
      packComponents .binary64 sign exponent mantissa := by
  by_cases htop : exponent.toNat = 2047
  · obtain rfl : exponent = -1#11 := BitVec.eq_of_toNat_eq htop
    by_cases hzero : mantissa = 0#52
    · subst hzero
      have hinfinity := unpack_pack_infinity sign
      change UnpackedFloat.unpack .binary64 (packComponents .binary64 sign (-1#11) 0#52) = _
        at hinfinity
      rw [hinfinity]
      rfl
    · rw [hvalid.eq_packedNaN unpackExponent_packComponents
        (by rwa [unpackMantissa_packComponents])]
      rfl
  · rw [unpack_components sign htop]
    split
    · rename_i hbottom
      obtain rfl : exponent = 0#11 := BitVec.eq_of_toNat_eq hbottom
      exact pack_subnormal sign
    · rename_i hbottom
      exact pack_normal sign htop hbottom

/-- Nothing is lost when a double is unpacked. -/
theorem eq_of_unpack_eq {x y : Float} (hunpack : x.toModel.unpack = y.toModel.unpack) : x = y := by
  have hpack (model : Float.Model) :
      UnpackedFloat.pack .binary64 model.unpack = model.toBits.toBitVec := by
    have hvalid := model.valid
    rw [Float.Model.unpack]
    rw [← packComponents_unpack model.toBits.toBitVec] at hvalid ⊢
    exact pack_unpack_components _ hvalid
  have hbits : x.toModel.toBits.toBitVec = y.toModel.toBits.toBitVec := by
    rw [← hpack, ← hpack, hunpack]
  obtain ⟨⟨⟨_⟩, _⟩⟩ := x
  obtain ⟨⟨⟨_⟩, _⟩⟩ := y
  cases hbits
  rfl

/-! ## Factors -/

variable {x y : Float}

theorem unpack_mul (x y : Float) : (x * y).toModel.unpack = (Float.Model.pack
    (UnpackedFloat.mul .binary64 x.toModel.unpack y.toModel.unpack)).unpack :=
  rfl

theorem unpack_zero : (0 : Float).toModel.unpack = .zero .positive :=
  rfl

theorem unpack_one_eq : (1 : Float).toModel.unpack = .finite .positive (2 ^ 52) (-52) (by decide) :=
  rfl

theorem positive_mul (s : Sign) : Sign.positive * s = s := by
  cases s <;> rfl

theorem sign_mul_comm (s t : Sign) : s * t = t * s := by
  cases s <;> cases t <;> rfl

theorem unpacked_mul_comm (u v : UnpackedFloat) :
    UnpackedFloat.mul .binary64 u v = UnpackedFloat.mul .binary64 v u := by
  cases u with
  | notANumber => cases v <;> rfl
  | infinity s =>
    cases v with
    | notANumber | zero t => rfl
    | infinity t | finite t n d hn => exact congrArg UnpackedFloat.infinity (sign_mul_comm s t)
  | zero s =>
    cases v with
    | notANumber | infinity t => rfl
    | zero t | finite t n d hn => exact congrArg UnpackedFloat.zero (sign_mul_comm s t)
  | finite s m e hm =>
    cases v with
    | notANumber => rfl
    | infinity t => exact congrArg UnpackedFloat.infinity (sign_mul_comm s t)
    | zero t => exact congrArg UnpackedFloat.zero (sign_mul_comm s t)
    | finite t n d hn =>
      rw [UnpackedFloat.mul, UnpackedFloat.mul, sign_mul_comm, Nat.mul_comm, Int.add_comm]

theorem float_mul_comm (x y : Float) : x * y = y * x := by
  apply eq_of_unpack_eq
  rw [unpack_mul, unpack_mul, unpacked_mul_comm]

/-- A pair times one has too many bits, which are rounded off without loss. -/
theorem roundWithAccuracy_one (s : Sign) {m : Nat} {e : Int} (hpair : Canonical m e) (hm : 0 < m) :
    UnpackedFloat.roundWithAccuracy .binary64 s (2 ^ 52 * m) (-52 + e) .exact = ofPair s m e := by
  have hbits : 52 ≤ (2 ^ 52 * m).log2 := by
    rw [Nat.le_log2 (by omega)]
    omega
  obtain ⟨p, d, hcanonical, hround, hnearest⟩ := exists_roundWithAccuracy s (e := -52 + e)
    (.inl hbits)
  have hvalue : pairValue (2 ^ 52 * m) (-52 + e) = pairValue m e := by
    rw [← pairValue_mul, pairValue, pairValue]
    norm_num
  rw [hvalue] at hnearest
  obtain ⟨rfl, rfl⟩ := hcanonical.eq_of_pairValue_eq hpair (hnearest.nearest.eq hpair)
  exact hround

theorem unpack_pack_zero (s : Sign) : (Float.Model.pack (.zero s)).unpack = .zero s := by
  cases s <;> rfl

theorem unpack_pack_unpack (model : Float.Model) :
    (Float.Model.pack model.unpack).unpack = model.unpack := by
  cases hunpack : model.unpack with
  | notANumber => rfl
  | infinity s => exact unpack_pack_infinity s
  | zero s => exact unpack_pack_zero s
  | finite s m e hm =>
    obtain ⟨hpair, he⟩ := canonical_of_unpack hunpack
    have hself := unpack_pack_ofPair s hpair he
    rwa [ofPair, dif_neg hm.ne'] at hself

theorem float_one_mul (x : Float) : 1 * x = x := by
  apply eq_of_unpack_eq
  have hmul : UnpackedFloat.mul .binary64 (1 : Float).toModel.unpack x.toModel.unpack =
      x.toModel.unpack := by
    rw [unpack_one_eq]
    cases hunpack : x.toModel.unpack with
    | notANumber => rfl
    | infinity s | zero s => cases s <;> rfl
    | finite s m e hm =>
      have hround := roundWithAccuracy_one s (canonical_of_unpack hunpack).1 hm
      rw [ofPair, dif_neg hm.ne'] at hround
      rw [UnpackedFloat.mul, positive_mul, hround]
  rw [unpack_mul, hmul, unpack_pack_unpack]

/-- A number is left alone where it counts.  Where it does not it is replaced by a zero, and what
    is not finite by what is no number. -/
structure Gated (counts : Prop) (value term : Float) : Prop where
  kept : counts → term = value
  zero : ¬ counts → value.isFinite = true → ∃ s, term.toModel.unpack = .zero s
  nan : ¬ counts → value.isFinite = false → term.isNaN = true

theorem unpack_zero_mul (hx : x.isFinite = true) : ∃ s, (0 * x).toModel.unpack = .zero s := by
  change x.toModel.unpack.isFinite = true at hx
  rw [unpack_mul, unpack_zero]
  cases hunpack : x.toModel.unpack with
  | zero s | finite s m e hm => exact ⟨_, unpack_pack_zero _⟩
  | notANumber | infinity s =>
    rw [hunpack] at hx
    cases hx

theorem isNaN_of_unpack (hx : x.toModel.unpack = .notANumber) : x.isNaN = true := by
  change x.toModel.unpack.isNaN = true
  rw [hx]
  rfl

theorem isNaN_zero_mul (hx : x.isFinite = false) : (0 * x).isNaN = true := by
  have hmul : UnpackedFloat.mul .binary64 (.zero .positive) x.toModel.unpack = .notANumber := by
    change x.toModel.unpack.isFinite = false at hx
    cases hunpack : x.toModel.unpack with
    | notANumber | infinity s => rfl
    | zero s | finite s m e hm =>
      rw [hunpack] at hx
      cases hx
  apply isNaN_of_unpack
  rw [unpack_mul, unpack_zero, hmul, unpack_pack_notANumber]

/-- A bit before a number decides whether it counts. -/
theorem gated_mul (counts : Prop) [Decidable counts] (x : Float) :
    Gated counts x ((if counts then 1 else 0) * x) := by
  refine ⟨fun hcounts => ?_, fun hnot hx => ?_, fun hnot hx => ?_⟩
  · rw [if_pos hcounts, float_one_mul]
  · rw [if_neg hnot]
    exact unpack_zero_mul hx
  · rw [if_neg hnot]
    exact isNaN_zero_mul hx

/-- So does a bit after it. -/
theorem mul_gated (counts : Prop) [Decidable counts] (x : Float) :
    Gated counts x (x * (if counts then 1 else 0)) := by
  rw [float_mul_comm]
  exact gated_mul counts x

/-! ## Zeros in sums -/

theorem zero_ne_negativeZero : (0 : Float).toModel.unpack ≠ .zero .negative := by
  rw [unpack_zero]
  exact fun h => by cases h

/-- Adding a zero of either sign changes nothing but a zero with a minus sign. -/
theorem add_of_zero (hx : x.toModel.unpack ≠ .zero .negative) {s : Sign}
    (hy : y.toModel.unpack = .zero s) : x + y = x := by
  apply eq_of_unpack_eq
  have hadd : UnpackedFloat.add .binary64 x.toModel.unpack y.toModel.unpack = x.toModel.unpack := by
    rw [hy]
    cases hunpack : x.toModel.unpack with
    | notANumber | infinity t | finite t m e hm => rfl
    | zero t =>
      cases t with
      | negative => exact absurd hunpack hx
      | positive => cases s <;> rfl
  rw [unpack_add, hadd, unpack_pack_unpack]

/-- A zero with a minus sign comes of no sum that starts with anything else. -/
theorem ne_negativeZero_add (hx : x.toModel.unpack ≠ .zero .negative) (y : Float) :
    (x + y).toModel.unpack ≠ .zero .negative := by
  intro hnegative
  have hfinite : (x + y).isFinite = true := by
    change (x + y).toModel.unpack.isFinite = true
    rw [hnegative]
    rfl
  obtain ⟨hxf, hyf, -⟩ := isFinite_add_iff.mp hfinite
  obtain ⟨s, m, a, hm, -, hsum⟩ := exists_pair_of_isFinite hxf
  obtain ⟨t, n, b, hn, -, hunpack⟩ := exists_pair_of_isFinite hyf
  obtain ⟨r, p, d, hpair, hadd, -, hzero⟩ := exists_add_ofPair s t hm hn
  rw [unpack_add, hsum, hunpack, hadd] at hnegative
  by_cases hd : d ≤ 971
  · rw [unpack_pack_ofPair r hpair hd, ofPair] at hnegative
    split at hnegative
    · rename_i hp
      obtain ⟨rfl, rfl⟩ := hzero hp (UnpackedFloat.zero.inj hnegative)
      exact hx hsum
    · cases hnegative
  · rw [unpack_pack_ofPair_of_lt r hpair (not_le.mp hd)] at hnegative
    cases hnegative

/-! ## What is no number -/

theorem unpack_of_isNaN (hx : x.isNaN = true) : x.toModel.unpack = .notANumber := by
  change x.toModel.unpack.isNaN = true at hx
  cases hunpack : x.toModel.unpack with
  | notANumber => rfl
  | infinity s | zero s | finite s m e hm =>
    rw [hunpack] at hx
    cases hx

theorem isFinite_of_isNaN (hx : x.isNaN = true) : x.isFinite = false := by
  change x.toModel.unpack.isFinite = false
  rw [unpack_of_isNaN hx]
  rfl

theorem isNaN_add (h : x.isNaN = true ∨ y.isNaN = true) : (x + y).isNaN = true := by
  have hadd : UnpackedFloat.add .binary64 x.toModel.unpack y.toModel.unpack = .notANumber := by
    rcases h with hx | hy
    · rw [unpack_of_isNaN hx]
      rfl
    · rw [unpack_of_isNaN hy]
      cases x.toModel.unpack <;> rfl
  apply isNaN_of_unpack
  rw [unpack_add, hadd, unpack_pack_notANumber]

theorem isNaN_div (hx : x.isNaN = true) (y : Float) : (x / y).isNaN = true := by
  have hunpack : (x / y).toModel.unpack = (Float.Model.pack
      (UnpackedFloat.div .binary64 x.toModel.unpack y.toModel.unpack)).unpack := rfl
  have hdiv : UnpackedFloat.div .binary64 .notANumber y.toModel.unpack = .notANumber := rfl
  apply isNaN_of_unpack
  rw [hunpack, unpack_of_isNaN hx, hdiv, unpack_pack_notANumber]

/-- What is no number is none whether it counts or not. -/
theorem Gated.isNaN {counts : Prop} {value term : Float} (hgated : Gated counts value term)
    (hvalue : value.isNaN = true) : term.isNaN = true := by
  by_cases hcounts : counts
  · rwa [hgated.kept hcounts]
  · exact hgated.nan hcounts (isFinite_of_isNaN hvalue)

/-! ## Sums with factors -/

section Sums

variable {α : Type} {counts : α → Prop} [DecidablePred counts] {value term : α → Float}
  {xs : List α} {start : Float}

/-- If all that does not count is finite, a sum with factors is the sum of what counts. -/
theorem foldl_gated (hgated : ∀ a ∈ xs, Gated (counts a) (value a) (term a))
    (hfinite : ∀ a ∈ xs, ¬ counts a → (value a).isFinite = true)
    (hstart : start.toModel.unpack ≠ .zero .negative) :
    xs.foldl (fun sum a => sum + term a) start =
      (xs.filter fun a => counts a).foldl (fun sum a => sum + value a) start := by
  induction xs generalizing start with
  | nil => rfl
  | cons a xs ih =>
    have hhead := hgated a List.mem_cons_self
    have htail {next : Float} (hnext : next.toModel.unpack ≠ .zero .negative) :
        xs.foldl (fun sum a => sum + term a) next =
          (xs.filter fun a => counts a).foldl (fun sum a => sum + value a) next :=
      ih (fun b hb => hgated b (List.mem_cons_of_mem a hb))
        (fun b hb => hfinite b (List.mem_cons_of_mem a hb)) hnext
    rw [List.foldl_cons]
    by_cases hcounts : counts a
    · rw [List.filter_cons_of_pos (by simpa using hcounts), List.foldl_cons, hhead.kept hcounts]
      exact htail (ne_negativeZero_add hstart _)
    · obtain ⟨s, hzero⟩ := hhead.zero hcounts (hfinite a List.mem_cons_self hcounts)
      rw [List.filter_cons_of_neg (by simpa using hcounts), add_of_zero hstart hzero]
      exact htail hstart

omit counts in
/-- A sum with a part that is no number is none. -/
theorem isNaN_foldl {a : α} (ha : a ∈ xs) (hterm : (term a).isNaN = true) :
    (xs.foldl (fun sum a => sum + term a) start).isNaN = true := by
  have hkept (ys : List α) {sum : Float} (hsum : sum.isNaN = true) :
      (ys.foldl (fun sum a => sum + term a) sum).isNaN = true := by
    induction ys generalizing sum with
    | nil => exact hsum
    | cons b ys ih => exact ih (isNaN_add (.inl hsum))
  obtain ⟨before, after, rfl⟩ := List.append_of_mem ha
  rw [List.foldl_append, List.foldl_cons]
  exact hkept after (isNaN_add (.inr hterm))

end Sums

end Annealing.Decimal
