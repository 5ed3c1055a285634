import Annealing.Proofs.Decimal.Exact
import Annealing.Proofs.Params.Numeric

/-! # What a map of parameters is read as

A map may hold anything: names of no parameter, a parameter under both of its names, values of any
kind.  Of several entries for one parameter only the last counts, even if nothing can be made of it.

* `Params.Given` — the value of the last entry for a parameter.
* `Field.Takes` — what a parameter takes from that value, and what is said of it.
* `Params.Judged` — the settings are accepted, or the first one out of its domain is the fault.
* `Params.read_dict` — a map is read by these three rules, and by nothing else of it.
-/

namespace Annealing

/-! ## What a value is read as -/

/-- The finite double that a value is read as: a text by the number it spells, a truth value as
    zero or one. -/
inductive Value.ReadsAs : Value → Float → Prop where
  | bool {b : Bool} {x : Float} (hx : Decimal.ofInt? (if b then 1 else 0) = some x) :
      ReadsAs (.bool b) x
  | int {i : Int} {x : Float} (hx : Decimal.ofInt? i = some x) : ReadsAs (.int i) x
  | float {x : Float} (hfinite : x.isFinite = true) : ReadsAs (.float x) x
  | text {s : String} {x : Float} (hx : Decimal.read? s = some x) (hfinite : x.isFinite = true) :
      ReadsAs (.text s) x

theorem Number.toFloat?_int_eq_ok_iff {i : Int} {x : Float} :
    (Number.int i).toFloat?.toOption = some x ↔ Decimal.ofInt? i = some x := by
  rw [toFloat?]
  cases Decimal.ofInt? i <;> simp [Except.toOption]

theorem Value.finite?_eq_some_iff {value : Value} {x : Float} :
    value.finite? = some x ↔ value.ReadsAs x := by
  dsimp only [finite?]
  rw [Option.filter_eq_some_iff]
  constructor
  · rintro ⟨hx, hfinite⟩
    cases value with
    | bool b => exact .bool (Number.toFloat?_int_eq_ok_iff.mp hx)
    | int i => exact .int (Number.toFloat?_int_eq_ok_iff.mp hx)
    | float y =>
      cases hx
      exact .float hfinite
    | text s => exact .text hx hfinite
    | none | list _ | tuple _ | dict _ => cases hx
  · intro hreads
    cases hreads with
    | bool hx | int hx =>
      exact ⟨Number.toFloat?_int_eq_ok_iff.mpr hx, Decimal.isFinite_of_ofInt? hx⟩
    | float hfinite => exact ⟨rfl, hfinite⟩
    | text hx hfinite => exact ⟨hx, hfinite⟩

theorem Value.ReadsAs.isFinite {value : Value} {x : Float} (hreads : value.ReadsAs x) :
    x.isFinite = true := by
  cases hreads with
  | bool hx | int hx => exact Decimal.isFinite_of_ofInt? hx
  | float hfinite | text _ hfinite => exact hfinite

/-- The value, unless it is no value. -/
def Value.present? : Value → Option Value
  | .none => Option.none
  | value => some value

theorem Value.present?_of_ne {value : Value} (hvalue : value ≠ .none) :
    value.present? = some value := by
  cases value with
  | none => exact absurd rfl hvalue
  | bool _ | int _ | float _ | text _ | list _ | tuple _ | dict _ => rfl

theorem Value.ReadsAs.ne_none {value : Value} {x : Float} (hreads : value.ReadsAs x) :
    value ≠ .none := by
  rintro rfl
  cases hreads

/-- The number that a double or an integer is. -/
def Value.exact : Value → ℚ
  | .float x => Decimal.exact x
  | .int i => i
  | _ => 0

/-! ## Names of parameters -/

namespace Field

/-- Is a key one of the two names of a parameter? -/
def isNamed (field : Field) : Value → Bool
  | .text name => name == field.name || name == field.shortName
  | _ => false

/-- No name is that of two parameters. -/
theorem ofKey?_eq_some_iff {key : Value} {field : Field} :
    ofKey? key = some field ↔ field.isNamed key = true := by
  cases key with
  | text s =>
    simp only [ofKey?, isNamed, Bool.or_eq_true, beq_iff_eq]
    constructor
    · intro hnamed
      have hname := List.find?_some hnamed
      simp only [Bool.or_eq_true, beq_iff_eq] at hname
      exact hname.imp Eq.symm Eq.symm
    · rintro (rfl | rfl) <;> cases field <;> rfl
  | none | bool _ | int _ | float _ | list _ | tuple _ | dict _ => simp [ofKey?, isNamed]

end Field

namespace Params

/-- The keys of a map that are the name of no parameter, in map order. -/
def unknownNames (entries : List (Value × Value)) : List Value :=
  (entries.map Prod.fst).filter fun key => !Field.all.any (·.isNamed key)

theorem unknownNames_eq (entries : List (Value × Value)) :
    unknownNames entries =
      (entries.filter fun entry => (Field.ofKey? entry.1).isNone).map Prod.fst := by
  rw [unknownNames, List.filter_map]
  congr 2
  funext entry
  rw [Bool.eq_iff_iff, Option.isNone_iff_eq_none, Option.eq_none_iff_forall_ne_some]
  simp only [Function.comp_apply, Bool.not_eq_true', List.any_eq_false, ne_eq,
    Field.ofKey?_eq_some_iff]
  exact ⟨fun h field => h field field.mem_all, fun h field _ => h field⟩

/-- The value of the last entry of a map for a parameter, if there is any entry for it. -/
inductive Given (entries : List (Value × Value)) (field : Field) : Option Value → Prop where
  | never (hnone : ∀ entry ∈ entries, field.isNamed entry.1 = false) : Given entries field none
  | last {before after : List (Value × Value)} {key value : Value}
      (hsplit : entries = before ++ (key, value) :: after) (hkey : field.isNamed key = true)
      (hafter : ∀ entry ∈ after, field.isNamed entry.1 = false) :
      Given entries field (some value)

theorem given_iff {entries : List (Value × Value)} {field : Field} {last? : Option Value} :
    Given entries field last? ↔
      (entries.reverse.find? fun entry => field.isNamed entry.1).map Prod.snd = last? := by
  constructor
  · intro hgiven
    cases hgiven with
    | never hnone =>
      rw [Option.map_eq_none_iff, List.find?_eq_none]
      simpa using hnone
    | @last before after key value hsplit hkey hafter =>
      refine Option.map_eq_some_iff.mpr ⟨(key, value), ?_, rfl⟩
      rw [List.find?_eq_some_iff_append]
      exact ⟨hkey, after.reverse, before.reverse, by simp [hsplit], by simpa using hafter⟩
  · rintro rfl
    cases hfound : entries.reverse.find? fun entry => field.isNamed entry.1 with
    | none =>
      rw [List.find?_eq_none] at hfound
      exact .never (by simpa using hfound)
    | some entry =>
      rw [List.find?_eq_some_iff_append] at hfound
      obtain ⟨hkey, after, before, hsplit, hafter⟩ := hfound
      have hentries : entries = before.reverse ++ (entry.1, entry.2) :: after.reverse := by
        rw [← List.reverse_reverse entries, hsplit]
        simp
      exact .last hentries hkey (by simpa using hafter)

/-- What a map supplies is what it gives, but for no value. -/
theorem supplied?_eq {entries : List (Value × Value)} {field : Field} {last? : Option Value}
    (hgiven : Given entries field last?) :
    supplied? entries field = last?.bind Value.present? := by
  have hnamed : (fun entry : Value × Value => Field.ofKey? entry.1 == some field) =
      fun entry => field.isNamed entry.1 := by
    funext entry
    rw [Bool.eq_iff_iff, beq_iff_eq, Field.ofKey?_eq_some_iff]
  rw [← given_iff.mp hgiven, supplied?, hnamed]
  cases entries.reverse.find? fun entry => field.isNamed entry.1 with
  | none => rfl
  | some entry =>
    obtain ⟨key, value⟩ := entry
    cases value <;> rfl

end Params

/-! ## What a parameter takes -/

namespace Field

/-- What a parameter takes from the value that a map gives to it, and what is said of it.  Where
    nothing is given it takes its default, and where nothing can be made of what is given as well,
    but not without a warning. -/
inductive Takes (field : Field) : Option Value → Value → Option Warning → Prop where
  | missing : Takes field none field.default none
  | noValue : Takes field (some .none) field.default none
  | unparsable {value : Value} (hvalue : value ≠ .none) (hnone : ∀ x, ¬ value.ReadsAs x) :
      Takes field (some value) field.default (some (.unparsable field value))
  | float {value : Value} {x : Float} (hfield : field ≠ .sweepsPerTemperature)
      (hreads : value.ReadsAs x) : Takes field (some value) (.float x) none
  | whole {value : Value} {x : Float} (hfield : field = .sweepsPerTemperature)
      (hreads : value.ReadsAs x) :
      Takes field (some value) (.int (Decimal.towardZero (Decimal.exact x))) none

variable {field : Field} {value : Value} {x : Float}

theorem parse?_eq_none (hnone : ∀ x, ¬ value.ReadsAs x) : field.parse? value = none := by
  have hfinite : value.finite? = none := by
    rw [Option.eq_none_iff_forall_ne_some]
    exact fun x hx => hnone x (Value.finite?_eq_some_iff.mp hx)
  cases field with
  | sweepsPerTemperature => simp [parse?, Value.whole?, hfinite]
  | initialTemperature | coolingFactor | finalTemperature => simp [parse?, hfinite]

theorem parse?_float (hfield : field ≠ .sweepsPerTemperature) (hreads : value.ReadsAs x) :
    field.parse? value = some (.float x) := by
  have hfinite := Value.finite?_eq_some_iff.mpr hreads
  cases field with
  | sweepsPerTemperature => exact absurd rfl hfield
  | initialTemperature | coolingFactor | finalTemperature => simp [parse?, hfinite]

theorem parse?_whole (hreads : value.ReadsAs x) :
    sweepsPerTemperature.parse? value =
      some (.int (Decimal.towardZero (Decimal.exact x))) := by
  obtain ⟨d, hd, htruncate⟩ := Decimal.exists_truncate hreads.isFinite
  rw [parse?, Value.whole?, Value.finite?_eq_some_iff.mpr hreads, Option.bind_some, hd, ← htruncate]
  rfl

/-- What a parameter takes is what is settled, and what is said of it is what is complained of. -/
theorem takes_iff {last? : Option Value} {setting : Value} {complaint : Option Warning} :
    field.Takes last? setting complaint ↔
      setting = Params.settle field (last?.bind Value.present?) ∧
        complaint = Params.complaint? field (last?.bind Value.present?) := by
  constructor
  · intro htakes
    cases htakes with
    | missing | noValue => exact ⟨rfl, rfl⟩
    | unparsable hvalue hnone =>
      simp [Params.settle, Params.complaint?, Value.present?_of_ne hvalue, parse?_eq_none hnone]
    | float hfield hreads =>
      simp [Params.settle, Params.complaint?, Value.present?_of_ne hreads.ne_none,
        parse?_float hfield hreads]
    | whole hfield hreads =>
      subst hfield
      simp [Params.settle, Params.complaint?, Value.present?_of_ne hreads.ne_none,
        parse?_whole hreads]
  · rintro ⟨rfl, rfl⟩
    cases last? with
    | none => exact .missing
    | some value =>
      by_cases hvalue : value = .none
      · subst hvalue
        exact .noValue
      rw [Option.bind_some, Value.present?_of_ne hvalue]
      by_cases hreads : ∃ x, value.ReadsAs x
      · obtain ⟨x, hx⟩ := hreads
        by_cases hfield : field = .sweepsPerTemperature
        · subst hfield
          simpa [Params.settle, Params.complaint?, parse?_whole hx] using
            Takes.whole rfl hx
        · simpa [Params.settle, Params.complaint?, parse?_float hfield hx] using
            Takes.float hfield hx
      · have hnone := not_exists.mp hreads
        have htakes : field.Takes (some value) _ _ := .unparsable hvalue hnone
        simpa [Params.settle, Params.complaint?, parse?_eq_none hnone] using htakes

/-- A value that a parameter may have once it is read: a finite double, or an integer for the
    sweeps. -/
inductive Holds (field : Field) : Value → Prop where
  | float {x : Float} (hfield : field ≠ .sweepsPerTemperature) (hfinite : x.isFinite = true) :
      Holds field (.float x)
  | int (hfield : field = .sweepsPerTemperature) (i : Int) : Holds field (.int i)

theorem holds_default (field : Field) : field.Holds field.default := by
  cases field with
  | sweepsPerTemperature => exact .int rfl _
  | initialTemperature | coolingFactor | finalTemperature => exact .float (by decide) (by decide)

theorem Takes.holds {last? : Option Value} {setting : Value} {complaint : Option Warning}
    (htakes : field.Takes last? setting complaint) : field.Holds setting := by
  cases htakes with
  | missing | noValue | unparsable _ _ => exact field.holds_default
  | float hfield hreads => exact .float hfield hreads.isFinite
  | whole hfield _ => exact .int hfield _

theorem Holds.exists_float (hfield : field ≠ .sweepsPerTemperature) (hholds : field.Holds value) :
    ∃ x, value = .float x ∧ x.isFinite = true := by
  cases hholds with
  | float _ hfinite => exact ⟨_, rfl, hfinite⟩
  | int hsweeps _ => exact absurd hsweeps hfield

theorem Holds.exists_int (hholds : sweepsPerTemperature.Holds value) : ∃ i, value = .int i := by
  cases hholds with
  | float hfield _ => exact absurd rfl hfield
  | int _ i => exact ⟨i, rfl⟩

/-! ## Domains -/

/-- The domain of a parameter, in exact numbers. -/
def Domain : Field → ℚ → Prop
  | initialTemperature, q => 0 < q
  | finalTemperature, q => 0 < q
  | coolingFactor, q => 0 < q ∧ q < 1
  | sweepsPerTemperature, q => 1 ≤ q

theorem Holds.exists_admits (hholds : field.Holds value) :
    ∃ admitted, field.admits value = .ok admitted ∧
      (admitted = true ↔ field.Domain value.exact) := by
  cases hholds with
  | @float x hfield hfinite =>
    have hpos : (Number.int 0).lt (.float x) = true ↔ 0 < Decimal.exact x := by
      simpa [Number.lt] using Decimal.intLtFloat_iff_exact (i := 0) hfinite
    have hlt : (Number.float x).lt (.int 1) = true ↔ Decimal.exact x < 1 := by
      simpa [Number.lt] using Decimal.floatLtInt_iff_exact (i := 1) hfinite
    cases field with
    | sweepsPerTemperature => exact absurd rfl hfield
    | initialTemperature | finalTemperature => exact ⟨_, rfl, hpos⟩
    | coolingFactor =>
      have hadmits : coolingFactor.admits (.float x) =
          .ok ((Number.int 0).lt (.float x) && (Number.float x).lt (.int 1)) := by
        have hzero : (Value.int 0).lt? (.float x) = .ok ((Number.int 0).lt (.float x)) := rfl
        have hone : (Value.float x).lt? (.int 1) = .ok ((Number.float x).lt (.int 1)) := rfl
        simp only [admits, hzero, hone]
        cases (Number.int 0).lt (.float x) <;> rfl
      exact ⟨_, hadmits, by rw [Bool.and_eq_true, hpos, hlt]; rfl⟩
  | int hfield i =>
    subst hfield
    refine ⟨_, rfl, ?_⟩
    have hone : (1 : ℚ) ≤ i ↔ 1 ≤ i := by exact_mod_cast Iff.rfl
    change _ ↔ (1 : ℚ) ≤ i
    simp [Number.lt, hone]

end Field

namespace Params

/-- What is made of settings: the parameters if each is in its domain, and else the fault of the
    first one that is not, where the temperatures come before the factor and the sweeps. -/
inductive Judged (setting : Field → Value) : Except Fault Params → Prop where
  | accepted (hdomain : ∀ field : Field, field.Domain (setting field).exact) :
      Judged setting (.ok (ofFields setting))
  | refused {before after : List Field} {field : Field}
      (horder : [.initialTemperature, .finalTemperature, .coolingFactor, .sweepsPerTemperature] =
        before ++ field :: after)
      (hbefore : ∀ earlier ∈ before, earlier.Domain (setting earlier).exact)
      (hout : ¬ field.Domain (setting field).exact) :
      Judged setting (.error (.outOfDomain field (setting field)))

section Settings

variable {setting : Field → Value} (hholds : ∀ field : Field, field.Holds (setting field))
  {field : Field}

include hholds

theorem check_eq_ok_iff :
    (ofFields setting).check field = .ok () ↔ field.Domain (setting field).exact := by
  obtain ⟨admitted, hadmits, hdomain⟩ := (hholds field).exists_admits
  rw [check, get_ofFields, hadmits, ← hdomain]
  cases admitted <;>
    simp [bind, Except.bind, pure, Except.pure, throw, throwThe, MonadExceptOf.throw]

theorem check_eq_error_iff {fault : Fault} :
    (ofFields setting).check field = .error fault ↔
      ¬ field.Domain (setting field).exact ∧ fault = .outOfDomain field (setting field) := by
  obtain ⟨admitted, hadmits, hdomain⟩ := (hholds field).exists_admits
  rw [check, get_ofFields, hadmits, ← hdomain]
  cases admitted <;>
    simp [bind, Except.bind, pure, Except.pure, throw, throwThe, MonadExceptOf.throw, eq_comm]

/-- Settings that parameters may have are judged by checking their domains one after the other. -/
theorem judged_iff {result : Except Fault Params} :
    Judged setting result ↔ (ofFields setting).validate = result := by
  have hvalidate : (ofFields setting).validate =
      (Field.checked.forM (ofFields setting).check).map fun _ => ofFields setting := by
    unfold validate
    cases Field.checked.forM (ofFields setting).check <;> rfl
  rw [hvalidate]
  constructor
  · intro hjudged
    cases hjudged with
    | accepted hdomain =>
      have hchecked : Field.checked.forM (ofFields setting).check = .ok () :=
        forM_eq_ok_iff.mpr fun field _ => (check_eq_ok_iff hholds).mpr (hdomain field)
      rw [hchecked]
      rfl
    | @refused before after field horder hbefore hout =>
      have hchecked : Field.checked.forM (ofFields setting).check =
          .error (.outOfDomain field (setting field)) :=
        forM_eq_error_iff.mpr ⟨before, field, after, horder,
          fun earlier hmem _ hfault =>
            ((check_eq_error_iff hholds).mp hfault).1 (hbefore earlier hmem),
          (check_eq_error_iff hholds).mpr ⟨hout, rfl⟩⟩
      rw [hchecked]
      rfl
  · rintro rfl
    cases hchecked : Field.checked.forM (ofFields setting).check with
    | ok done =>
      exact .accepted fun field =>
        (check_eq_ok_iff hholds).mp (forM_eq_ok_iff.mp hchecked field field.mem_checked)
    | error fault =>
      obtain ⟨before, field, after, horder, hbefore, hfault⟩ := forM_eq_error_iff.mp hchecked
      obtain ⟨hout, rfl⟩ := (check_eq_error_iff hholds).mp hfault
      refine .refused horder (fun earlier hmem => ?_) hout
      by_contra hearlier
      exact hbefore earlier hmem _ ((check_eq_error_iff hholds).mpr ⟨hearlier, rfl⟩)

/-- Accepted settings are finite doubles and an integer, each in its domain. -/
theorem exists_of_judged {params : Params} (hjudged : Judged setting (.ok params)) :
    ∃ initial factor final sweeps,
      params = ⟨.float initial, .float factor, .float final, .int sweeps⟩ ∧
        initial.isFinite = true ∧ 0 < Decimal.exact initial ∧
        (0 < Decimal.exact factor ∧ Decimal.exact factor < 1) ∧
        final.isFinite = true ∧ 0 < Decimal.exact final ∧ 1 ≤ sweeps := by
  cases hjudged with
  | accepted hdomain =>
    obtain ⟨initial, hinitial, hfinite⟩ := (hholds .initialTemperature).exists_float (by decide)
    obtain ⟨factor, hfactor, -⟩ := (hholds .coolingFactor).exists_float (by decide)
    obtain ⟨final, hfinal, hfinite'⟩ := (hholds .finalTemperature).exists_float (by decide)
    obtain ⟨sweeps, hsweeps⟩ := (hholds .sweepsPerTemperature).exists_int
    have hinitial_pos := hdomain .initialTemperature
    have hfactor_between := hdomain .coolingFactor
    have hfinal_pos := hdomain .finalTemperature
    have hsweeps_pos := hdomain .sweepsPerTemperature
    rw [hinitial] at hinitial_pos
    rw [hfactor] at hfactor_between
    rw [hfinal] at hfinal_pos
    rw [hsweeps] at hsweeps_pos
    refine ⟨initial, factor, final, sweeps, ?_, hfinite, hinitial_pos, hfactor_between, hfinite',
      hfinal_pos, ?_⟩
    · rw [ofFields, hinitial, hfactor, hfinal, hsweeps]
    · exact_mod_cast (show (1 : ℚ) ≤ sweeps from hsweeps_pos)

end Settings

/-! ## Reading -/

/-- The reading of a map: what each parameter takes from its last entry, the warnings about unknown
    names before those about values, of which only the latter are logged, and the judgement of what
    is taken. -/
def Reads (entries : List (Value × Value)) (reading : Reading) : Prop :=
  ∃ (setting : Field → Value) (complaint : Field → Option Warning),
    (∀ field, ∃ last?, Given entries field last? ∧
      field.Takes last? (setting field) (complaint field)) ∧
    reading.warnings =
      (unknownNames entries).map .unknown ++ Field.all.filterMap complaint ∧
    reading.warnings.filter Warning.isLogged = Field.all.filterMap complaint ∧
    Judged setting reading.result

/-- The last entry for a parameter is all that the parameter takes anything from. -/
theorem exists_takes_iff {entries : List (Value × Value)} {field : Field} {setting : Value}
    {complaint : Option Warning} :
    (∃ last?, Given entries field last? ∧ field.Takes last? setting complaint) ↔
      setting = settle field (supplied? entries field) ∧
        complaint = complaint? field (supplied? entries field) := by
  constructor
  · rintro ⟨last?, hgiven, htakes⟩
    rw [supplied?_eq hgiven]
    exact Field.takes_iff.mp htakes
  · intro hsettled
    have hgiven : Given entries field _ := given_iff.mpr rfl
    refine ⟨_, hgiven, Field.takes_iff.mpr ?_⟩
    rwa [← supplied?_eq hgiven]

/-- Every complaint about a value goes to the log, and no other warning does. -/
theorem filter_isLogged (names : List Value) {complaint : Field → Option Warning}
    (hcomplaint : ∀ field warning, complaint field = some warning → warning.isLogged = true) :
    (names.map Warning.unknown ++ Field.all.filterMap complaint).filter Warning.isLogged =
      Field.all.filterMap complaint := by
  have hunknown : (names.map Warning.unknown).filter Warning.isLogged = [] := by
    simp [List.filter_map, Warning.isLogged]
  have hlogged : (Field.all.filterMap complaint).filter Warning.isLogged =
      Field.all.filterMap complaint := by
    rw [List.filter_eq_self]
    intro warning hmem
    obtain ⟨field, -, hsome⟩ := List.mem_filterMap.mp hmem
    exact hcomplaint field warning hsome
  rw [List.filter_append, hunknown, hlogged, List.nil_append]

theorem isLogged_of_complaint? {field : Field} {value? : Option Value} {warning : Warning}
    (hcomplaint : complaint? field value? = some warning) : warning.isLogged = true := by
  obtain ⟨value, -, hsome⟩ := Option.bind_eq_some_iff.mp hcomplaint
  split at hsome
  · cases hsome
    rfl
  · cases hsome

theorem warnings_ofEntries (entries : List (Value × Value)) :
    (ofEntries entries).warnings = (unknownNames entries).map .unknown ++
      Field.all.filterMap fun field => complaint? field (supplied? entries field) := by
  rw [ofEntries, unknownNames_eq, List.map_map]
  rfl

/-- The entries of a map have one reading. -/
theorem reads_iff {entries : List (Value × Value)} {reading : Reading} :
    Reads entries reading ↔ ofEntries entries = reading := by
  have hholds (field : Field) : field.Holds (settle field (supplied? entries field)) := by
    obtain ⟨last?, -, htakes⟩ := exists_takes_iff.mpr ⟨rfl, rfl⟩
    exact htakes.holds
  constructor
  · rintro ⟨setting, complaint, htakes, hwarnings, -, hjudged⟩
    obtain rfl : setting = fun field => settle field (supplied? entries field) :=
      funext fun field => (exists_takes_iff.mp (htakes field)).1
    obtain rfl : complaint = fun field => complaint? field (supplied? entries field) :=
      funext fun field => (exists_takes_iff.mp (htakes field)).2
    have hresult := (judged_iff hholds).mp hjudged
    rw [← warnings_ofEntries] at hwarnings
    obtain ⟨warnings, result⟩ := reading
    cases hwarnings
    cases hresult
    rfl
  · rintro rfl
    refine ⟨fun field => settle field (supplied? entries field),
      fun field => complaint? field (supplied? entries field),
      fun field => exists_takes_iff.mpr ⟨rfl, rfl⟩, warnings_ofEntries entries, ?_,
      (judged_iff hholds).mpr rfl⟩
    rw [warnings_ofEntries]
    exact filter_isLogged _ fun _ _ => isLogged_of_complaint?

/-- A map is read in just one way, and in the way of every other map with the same unknown names in
    the same order and the same last values of the four parameters.  Parameters that come out are
    three finite doubles and an integer, each in its domain. -/
theorem read_dict (entries : List (Value × Value)) :
    (∀ reading, Params.read (.value (.dict entries)) = reading ↔ Reads entries reading) ∧
      (∀ params, (Params.read (.value (.dict entries))).result = .ok params →
        ∃ initial factor final sweeps,
          params = ⟨.float initial, .float factor, .float final, .int sweeps⟩ ∧
            initial.isFinite = true ∧ 0 < Decimal.exact initial ∧
            (0 < Decimal.exact factor ∧ Decimal.exact factor < 1) ∧
            final.isFinite = true ∧ 0 < Decimal.exact final ∧ 1 ≤ sweeps) ∧
      ∀ other, unknownNames other = unknownNames entries →
        (∀ field last?, Given entries field last? → Given other field last?) →
        Params.read (.value (.dict other)) = Params.read (.value (.dict entries)) := by
  refine ⟨fun reading => reads_iff.symm, ?_, ?_⟩
  · intro params hresult
    obtain ⟨setting, complaint, htakes, -, -, hjudged⟩ :=
      reads_iff.mpr (Eq.refl (ofEntries entries))
    have hholds (field : Field) : field.Holds (setting field) := by
      obtain ⟨last?, -, htakes⟩ := htakes field
      exact htakes.holds
    rw [show (ofEntries entries).result = .ok params from hresult] at hjudged
    exact exists_of_judged hholds hjudged
  · intro other hunknown hlast
    obtain ⟨setting, complaint, htakes, hwarnings, hlogged, hjudged⟩ :=
      reads_iff.mpr (Eq.refl (ofEntries entries))
    refine reads_iff.mp ⟨setting, complaint, fun field => ?_, ?_, hlogged, hjudged⟩
    · obtain ⟨last?, hgiven, htakes⟩ := htakes field
      exact ⟨last?, hlast field last? hgiven, htakes⟩
    · rw [hunknown]
      exact hwarnings

/-- Entries of which some are shadowed, by what is no number, by a fraction and by no value. -/
def shadowed : List (Value × Value) :=
  [(.text "speed", .int 3), (.text "kTinit", .text "5"), (.text "cooling_factor", .float 0.5),
    (.text "rpt", .float 0.9), (.text "initial_temperature", .text "hot"), (.text "cl", .none)]

/-- Other entries with the same unknown name and the same last values. -/
def reordered : List (Value × Value) :=
  [(.text "sweeps_per_temperature", .float 0.9), (.text "initial_temperature", .int 7),
    (.text "cl", .none), (.text "kTinit", .text "hot"), (.text "speed", .text "high")]

/-- A temperature that is no number is complained of, and a number of sweeps less than one is cut
    down to none, which is out of its domain.  A map of texts and a truth value is accepted. -/
theorem read_dict_shadowed :
    unknownNames reordered = unknownNames shadowed ∧
      (∀ field last?, Given shadowed field last? → Given reordered field last?) ∧
      Params.read (.value (.dict reordered)) =
        ⟨[.unknown (.text "speed"), .unparsable .initialTemperature (.text "hot")],
          .error (.outOfDomain .sweepsPerTemperature (.int 0))⟩ ∧
      ∃ initial factor final sweeps,
        (Params.read (.value (.dict
            [(.text "rpt", .bool true), (.text "cl", .text "\t1_0e-2\n")]))).result =
          .ok ⟨.float initial, .float factor, .float final, .int sweeps⟩ ∧
        0 < Decimal.exact factor ∧ Decimal.exact factor < 1 ∧ 1 ≤ sweeps := by
  have hunknown : unknownNames reordered = unknownNames shadowed := rfl
  have hlast : ∀ field last?, Given shadowed field last? → Given reordered field last? := by
    intro field last? hgiven
    rw [given_iff] at hgiven ⊢
    rw [← hgiven]
    cases field <;> rfl
  obtain ⟨-, -, hsame⟩ := read_dict shadowed
  obtain ⟨-, hdomains, -⟩ :=
    read_dict [(.text "rpt", .bool true), (.text "cl", .text "\t1_0e-2\n")]
  obtain ⟨initial, factor, final, sweeps, heq, -, -, hfactor, -, -, hsweeps⟩ := hdomains _ rfl
  refine ⟨hunknown, hlast, (hsame reordered hunknown hlast).trans rfl, initial, factor, final,
    sweeps, ?_, hfactor.1, hfactor.2, hsweeps⟩
  rw [← heq]
  rfl

end Params

end Annealing
