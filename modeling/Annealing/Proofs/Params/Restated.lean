import Annealing.Proofs.Decimal.Integers
import Annealing.Proofs.Params.Entries

/-! # Parameters that are read again

Parameters that were read once can be written down as a map, in any order and under either name of
each, and are what that map is read as.  The sweeps are what this turns on: they may have been cut
out of a great double, and then have to be a double themselves.

* `Decimal.Magnitude.exists_floor` — a double without its fraction is a double.
* `Field.Takes.again` — what a parameter has taken from something, it takes from that value again.
* `Params.Judged.read_restated` — accepted settings that are kept are read off their own map.
* `Params.read_again` — parameters that were read are read again as they are, without a warning.
-/

namespace Annealing

/-! ## Integer parts -/

namespace Decimal

theorem towardZero_natCast (n : Nat) : towardZero n = n := by
  rw [towardZero, if_pos n.cast_nonneg, Int.floor_natCast]

/-- A double that is not negative is an integer from `2 ^ 53` on, and its integer part is so small
    below that it has a double as well. -/
theorem Magnitude.exists_floor {x : Float} {m : Nat} {e : Int} (hx : Magnitude x m e) :
    ∃ p d, Magnitude (Float.ofNat ⌊pairValue m e⌋₊) p d ∧ pairValue p d = ⌊pairValue m e⌋₊ := by
  by_cases hsmall : ⌊pairValue m e⌋₊ < 2 ^ 53
  · exact exists_magnitude_ofNat hsmall
  · have hgreat : (2 ^ 53 : ℚ) ≤ pairValue m e := by
      have hle := (Nat.le_floor_iff (pairValue_nonneg m e)).mp (Nat.le_of_not_lt hsmall)
      exact_mod_cast hle
    have he : 0 ≤ e := by
      by_contra hnegative
      have hlt : (m : ℚ) < 2 ^ 53 := by exact_mod_cast hx.canonical.lt
      have hpow : (2 : ℚ) ^ e ≤ 1 := zpow_le_one_of_nonpos₀ one_le_two (by omega)
      have hle : pairValue m e ≤ m := mul_le_of_le_one_right m.cast_nonneg hpow
      linarith
    obtain ⟨k, rfl⟩ := Int.eq_ofNat_of_zero_le he
    have hwhole : pairValue m k = (m * 2 ^ k : Nat) := by
      rw [pairValue, zpow_natCast]
      push_cast
      rfl
    have hfloor : (⌊pairValue m k⌋₊ : ℚ) = pairValue m k := by
      rw [hwhole, Nat.floor_natCast]
    obtain ⟨p, d, hmagnitude, hnearest⟩ := (ofNat_roundedTo ⌊pairValue m k⌋₊).exists_magnitude
      hx.canonical hx.bounded hfloor.le
    rw [hfloor] at hnearest
    exact ⟨p, d, hmagnitude, (hnearest.eq hx.canonical).trans hfloor.symm⟩

/-- What has an integer part of one or more is a pair without a sign. -/
theorem exists_magnitude_of_towardZero {x : Float} (hx : x.isFinite = true)
    (hone : 1 ≤ towardZero (exact x)) : ∃ m e, Magnitude x m e := by
  obtain ⟨s, m, e, hpair, he, hunpack⟩ := exists_pair_of_isFinite hx
  cases s with
  | positive => exact ⟨m, e, hpair, he, hunpack⟩
  | negative =>
    have hnonneg := pairValue_nonneg m e
    rw [exact_of_unpack hunpack, signFactor, neg_one_mul, towardZero] at hone
    split at hone
    · have hle : (1 : ℚ) ≤ -pairValue m e := by exact_mod_cast Int.le_floor.mp hone
      linarith
    · have hle : ⌈-pairValue m e⌉ ≤ 0 := Int.ceil_le.mpr (by simpa using hnonneg)
      omega

end Decimal

/-! ## Values that are kept -/

namespace Field

open Decimal (Magnitude pairValue)

variable {field : Field}

/-- A natural number that is a double is kept as the sweeps. -/
theorem takes_natural {n m : Nat} {e : Int} (hn : Magnitude (Float.ofNat n) m e)
    (hvalue : pairValue m e = n) : sweepsPerTemperature.Takes (some (.int n)) (.int n) none := by
  have hofInt : Decimal.ofInt? n = some (Float.ofNat n) := if_pos hn.isFinite
  have hkept : Decimal.towardZero (Decimal.exact (Float.ofNat n)) = n := by
    rw [hn.exact_eq, hvalue, Decimal.towardZero_natCast]
  have htakes : sweepsPerTemperature.Takes (some (.int n)) _ none := .whole rfl (.int hofInt)
  rwa [hkept] at htakes

theorem takes_default (field : Field) : field.Takes (some field.default) field.default none := by
  cases field with
  | sweepsPerTemperature =>
    obtain ⟨m, e, hmagnitude, hvalue⟩ := Decimal.exists_magnitude_ofNat (n := 20000) (by decide)
    exact takes_natural hmagnitude hvalue
  | initialTemperature | coolingFactor | finalTemperature =>
    exact .float (by decide) (.float (by decide))

/-- A value of its domain that a parameter has taken from anything is one that it keeps. -/
theorem Takes.again {last? : Option Value} {setting : Value} {complaint : Option Warning}
    (htakes : field.Takes last? setting complaint) (hdomain : field.Domain setting.exact) :
    field.Takes (some setting) setting none := by
  cases htakes with
  | missing | noValue | unparsable _ _ => exact field.takes_default
  | float hfield hreads => exact .float hfield (.float hreads.isFinite)
  | @whole value x hfield hreads =>
    subst hfield
    have hone : 1 ≤ Decimal.towardZero (Decimal.exact x) := by
      exact_mod_cast (show (1 : ℚ) ≤ Decimal.towardZero (Decimal.exact x) from hdomain)
    obtain ⟨m, e, hx⟩ := Decimal.exists_magnitude_of_towardZero hreads.isFinite hone
    obtain ⟨p, d, hmagnitude, hvalue⟩ := hx.exists_floor
    have hnonneg := Decimal.pairValue_nonneg m e
    have hfloor : Decimal.towardZero (Decimal.exact x) = ⌊pairValue m e⌋₊ := by
      rw [hx.exact_eq, Decimal.towardZero, if_pos hnonneg, Int.natCast_floor_eq_floor hnonneg]
    rw [hfloor]
    exact takes_natural hmagnitude hvalue

/-- Is the text one of the two names of the parameter? -/
def HasName (field : Field) (name : String) : Prop :=
  name = field.name ∨ name = field.shortName

theorem HasName.isNamed {name : String} (hname : field.HasName name) :
    field.isNamed (.text name) = true := by
  simpa [Field.isNamed, HasName] using hname

/-- A name is not that of another parameter. -/
theorem HasName.isNamed_other {name : String} (hname : field.HasName name) {other : Field}
    (hother : other ≠ field) : other.isNamed (.text name) = false := by
  rw [Bool.eq_false_iff]
  intro hnamed
  have hfield := ofKey?_eq_some_iff.mpr hname.isNamed
  rw [ofKey?_eq_some_iff.mpr hnamed] at hfield
  exact hother (Option.some.inj hfield)

end Field

/-! ## Maps of parameters -/

namespace Params

/-- Parameters as the entries of a map, in an order of the fields and with a name for each. -/
def restated (params : Params) (order : List Field) (name : Field → String) :
    List (Value × Value) :=
  order.map fun field => (.text (name field), params.get field)

section Restated

variable {params : Params} {order : List Field} {name : Field → String}
  (horder : order.Perm Field.all) (hname : ∀ field : Field, field.HasName (name field))

include horder hname

/-- The entry for a parameter is the only one. -/
theorem given_restated (field : Field) :
    Given (params.restated order name) field (some (params.get field)) := by
  have hnodup : order.Nodup := horder.nodup_iff.mpr (by decide)
  obtain ⟨before, after, rfl⟩ := List.append_of_mem (horder.mem_iff.mpr field.mem_all)
  have hsplit : params.restated (before ++ field :: after) name =
      params.restated before name ++
        (.text (name field), params.get field) :: params.restated after name := by
    simp only [restated, List.map_append, List.map_cons]
  refine .last hsplit (hname field).isNamed fun entry hentry => ?_
  obtain ⟨other, hother, rfl⟩ := List.mem_map.mp hentry
  refine (hname other).isNamed_other ?_
  rintro rfl
  exact (List.nodup_cons.mp (List.nodup_append.mp hnodup).2.1).1 hother

omit horder in
theorem unknownNames_restated : unknownNames (params.restated order name) = [] := by
  rw [unknownNames, List.filter_eq_nil_iff]
  intro key hkey
  obtain ⟨entry, hentry, rfl⟩ := List.mem_map.mp hkey
  obtain ⟨field, -, rfl⟩ := List.mem_map.mp hentry
  rw [Bool.not_eq_true, Bool.not_eq_false']
  exact List.any_eq_true.mpr ⟨field, field.mem_all, (hname field).isNamed⟩

/-- Settings that are accepted and that each parameter keeps are read off the map that states
    them, and nothing is said about them. -/
theorem Judged.read_restated {setting : Field → Value}
    (hkept : ∀ field : Field, field.Takes (some (setting field)) (setting field) none)
    (hjudged : Judged setting (.ok (ofFields setting))) :
    Params.read (.value (.dict ((ofFields setting).restated order name))) =
      ⟨[], .ok (ofFields setting)⟩ := by
  refine reads_iff.mp ⟨setting, fun _ => none, fun field => ?_, ?_, ?_, hjudged⟩
  · have hgiven : Given _ field (some ((ofFields setting).get field)) :=
      given_restated horder hname field
    rw [get_ofFields] at hgiven
    exact ⟨_, hgiven, hkept field⟩
  · rw [unknownNames_restated hname]
    rfl
  · rfl

end Restated

/-- Whatever parameters are read from is read like the entries of some map. -/
theorem exists_ofEntries {value : Value} {params : Params}
    (hread : (Params.read (.value value)).result = .ok params) :
    ∃ entries, (ofEntries entries).result = .ok params := by
  have hempty (h : (if value.isTruthy then (⟨[], .error .noEntries⟩ : Reading)
      else ofEntries []).result = .ok params) :
      ∃ entries, (ofEntries entries).result = .ok params := by
    split at h
    · cases h
    · exact ⟨[], h⟩
  cases value with
  | dict entries => exact ⟨entries, hread⟩
  | none | bool _ | int _ | float _ | text _ | list _ | tuple _ => exact hempty hread

/-- Parameters that were read, from a map or from anything else, are accepted when they are supplied
    as they are, and also as a map that states them in any order and under either name of each.
    They come out unchanged, with an integer for the sweeps, and nothing is said or logged. -/
theorem read_again {value : Value} {params : Params}
    (hread : (Params.read (.value value)).result = .ok params) :
    Params.read (.params params) = ⟨[], .ok params⟩ ∧
      (∃ sweeps, params.sweepsPerTemperature = .int sweeps) ∧
      ∀ (order : List Field) (name : Field → String), order.Perm Field.all →
        (∀ field : Field, field.HasName (name field)) →
        Params.read (.value (.dict (params.restated order name))) = ⟨[], .ok params⟩ := by
  obtain ⟨entries, hentries⟩ := exists_ofEntries hread
  obtain ⟨setting, complaint, htakes, -, -, hjudged⟩ := reads_iff.mpr (Eq.refl (ofEntries entries))
  have hholds (field : Field) : field.Holds (setting field) := by
    obtain ⟨last?, -, htakes⟩ := htakes field
    exact htakes.holds
  rw [hentries] at hjudged
  cases hjudged with
  | accepted hdomain =>
    have hkept (field : Field) : field.Takes (some (setting field)) (setting field) none := by
      obtain ⟨last?, -, htakes⟩ := htakes field
      exact htakes.again (hdomain field)
    have haccepted : Judged setting (.ok (ofFields setting)) := .accepted hdomain
    refine ⟨?_, (hholds .sweepsPerTemperature).exists_int, fun order name horder hname =>
      haccepted.read_restated horder hname hkept⟩
    rw [Params.read, (judged_iff hholds).mp haccepted]

/-- A text for an integer that is no double leaves the sweeps of the nearest double, and these are
    read again in another order and under other names. -/
theorem read_again_sample :
    (Params.read (.value (.dict [(.text "rpt", .text "9007199254740993"),
        (.text "kTF", .bool true), (.text "cl", .float 0.5)]))).result =
      .ok ⟨.float 10.0, .float 0.5, .float 1.0, .int 9007199254740992⟩ ∧
    Params.read (.value (.dict
        [(.text "kTF", .float 1.0), (.text "cooling_factor", .float 0.5),
          (.text "rpt", .int 9007199254740992), (.text "initial_temperature", .float 10.0)])) =
      ⟨[], .ok ⟨.float 10.0, .float 0.5, .float 1.0, .int 9007199254740992⟩⟩ := by
  have hread : (Params.read (.value (.dict [(.text "rpt", .text "9007199254740993"),
      (.text "kTF", .bool true), (.text "cl", .float 0.5)]))).result =
      .ok ⟨.float 10.0, .float 0.5, .float 1.0, .int 9007199254740992⟩ := rfl
  obtain ⟨-, -, hagain⟩ := read_again hread
  let name : Field → String
    | .finalTemperature => "kTF"
    | .coolingFactor => "cooling_factor"
    | .sweepsPerTemperature => "rpt"
    | .initialTemperature => "initial_temperature"
  have hname (field : Field) : field.HasName (name field) := by
    cases field with
    | finalTemperature | sweepsPerTemperature => exact .inr rfl
    | coolingFactor | initialTemperature => exact .inl rfl
  exact ⟨hread, hagain
    [.finalTemperature, .coolingFactor, .sweepsPerTemperature, .initialTemperature] name
    (by decide) hname⟩

end Params

end Annealing
