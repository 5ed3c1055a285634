import Annealing.Params.Cooling
import Annealing.Params.Reading

/-! # Numeric parameters

Parameters may be supplied as values of any kind.  Where all four are numbers and each is in its
domain, the factor is a double and the schedule computes with numbers alone: `Params.Regular` holds
these numbers.

* `Value.lt?_of_number`, `Value.le?_of_number`, `Value.div?_of_number`, `Value.log?_of_number`,
  `Temperature.mul?_of_number` — comparisons, quotient, logarithm and product of values that are
  numbers.
* `numeric_of_validate` — parameters that are accepted are numbers.
* `exists_regular_of_read` — the parameters that are read from a map, and ready parameters that
  are numbers, are regular once they are accepted.
* `Regular.hot_eq`, `Regular.cool_eq` — what their schedule does.
-/

namespace Annealing

/-! ## Computations that succeed -/

theorem bind_eq_ok_iff {α β ε : Type} {x : Except ε α} {f : α → Except ε β} {b : β} :
    x >>= f = .ok b ↔ ∃ a, x = .ok a ∧ f a = .ok b := by
  cases x <;> simp [bind, Except.bind]

theorem forM_eq_ok_iff {α ε : Type} {f : α → Except ε Unit} {xs : List α} :
    xs.forM f = .ok () ↔ ∀ x ∈ xs, f x = .ok () := by
  induction xs with
  | nil => simp [List.forM, pure, Except.pure]
  | cons x xs ih =>
    rw [List.forM, bind_eq_ok_iff, List.forall_mem_cons, ← ih]
    constructor
    · rintro ⟨⟨⟩, hx, hxs⟩
      exact ⟨hx, hxs⟩
    · rintro ⟨hx, hxs⟩
      exact ⟨(), hx, hxs⟩

/-! ## Values that are numbers -/

theorem Number.mul_float (a : Number) (x : Float) :
    a.mul (.float x) = a.toFloat?.map fun y => .float (y * x) := by
  cases a with
  | int i =>
    change (Number.int i).toFloat? >>= (fun y => pure (Number.float (y * x))) = _
    cases (Number.int i).toFloat? <;> rfl
  | float y => rfl

namespace Value

variable {value : Value} {a : Number}

theorem toNumber?_of_number (hvalue : value.number? = some a) : value.toNumber? = .ok a := by
  rw [toNumber?, hvalue]

theorem toFloat?_of_number (hvalue : value.number? = some a) : value.toFloat? = a.toFloat? := by
  rw [toFloat?, toNumber?_of_number hvalue]
  rfl

@[simp] theorem number?_toValue (a : Number) : a.toValue.number? = some a := by
  cases a <;> rfl

/-- A number is no text and no sequence, so nothing of it is repeated. -/
theorem repeats_of_number (hvalue : value.number? = some a) :
    value.isText = false ∧ value.isSequence = false ∧ value.copied 1 = value := by
  cases value with
  | bool _ | int _ | float _ => exact ⟨rfl, rfl, rfl⟩
  | none | text _ | list _ | tuple _ | dict _ => cases hvalue

theorem lt?_of_number {other : Value} {b : Number} (hvalue : value.number? = some a)
    (hother : other.number? = some b) : value.lt? other = .ok (a.lt b) := by
  have hvalue' := toNumber?_of_number hvalue
  have hother' := toNumber?_of_number hother
  cases value with
  | bool _ | int _ | float _ =>
    simp only [lt?, hvalue', hother']
    rfl
  | none | text _ | list _ | tuple _ | dict _ => cases hvalue

theorem le?_of_number {other : Value} {b : Number} (hvalue : value.number? = some a)
    (hother : other.number? = some b) : value.le? other = .ok (a.lt b || a.eq b) := by
  have hvalue' := toNumber?_of_number hvalue
  have hother' := toNumber?_of_number hother
  cases value with
  | bool _ | int _ | float _ =>
    simp only [le?, hvalue', hother']
    rfl
  | none | text _ | list _ | tuple _ | dict _ => cases hvalue

theorem div?_of_number {other : Value} {b : Number} (hvalue : value.number? = some a)
    (hother : other.number? = some b) : value.div? other = a.div b := by
  rw [div?, toNumber?_of_number hvalue, toNumber?_of_number hother]
  rfl

theorem log?_of_number {log : Float → Float} (hvalue : value.number? = some a) :
    value.log? log = (a.log log).map .float := by
  rw [log?, toNumber?_of_number hvalue]
  change a.log log >>= _ = _
  cases a.log log <;> rfl

theorem eq_float_of_number {x : Float} (hvalue : value.number? = some (.float x)) :
    value = .float x := by
  cases value with
  | float y =>
    cases hvalue
    rfl
  | none | bool _ | int _ | text _ | list _ | tuple _ | dict _ => cases hvalue

/-- Nothing but a number compares with an integer. -/
theorem exists_number_of_int_lt? {i : Int} {less : Bool}
    (hless : (Value.int i).lt? value = .ok less) : ∃ a, value.number? = some a := by
  cases value with
  | bool _ | int _ | float _ => exact ⟨_, rfl⟩
  | none | text _ | list _ | tuple _ | dict _ =>
    simp only [lt?, bind_eq_ok_iff] at hless
    obtain ⟨_, -, _, hvalue, -⟩ := hless
    cases hvalue

theorem exists_number_of_lt?_int {i : Int} {less : Bool}
    (hless : value.lt? (.int i) = .ok less) : ∃ a, value.number? = some a := by
  cases value with
  | bool _ | int _ | float _ => exact ⟨_, rfl⟩
  | none | text _ | list _ | tuple _ | dict _ =>
    simp only [lt?, bind_eq_ok_iff] at hless
    obtain ⟨_, hvalue, -⟩ := hless
    cases hvalue

end Value

namespace Temperature

variable {value : Value} {a : Number}

theorem toValue_of_number (hvalue : value.number? = some a) : (ofValue value).toValue = value :=
  (Value.repeats_of_number hvalue).2.2

/-- A number that is multiplied by a double is rounded to one. -/
theorem mul?_of_number {other : Value} {x : Float} (hvalue : value.number? = some a)
    (hother : other.number? = some (.float x)) :
    (ofValue value).mul? other = a.toFloat?.map fun y => ofValue (.float (y * x)) := by
  obtain ⟨htext, hsequence, -⟩ := Value.repeats_of_number hvalue
  obtain ⟨htext', hsequence', -⟩ := Value.repeats_of_number hother
  simp only [mul?, ofValue, htext, hsequence, htext', hsequence', Bool.or_self,
    Bool.false_eq_true, if_false, Value.toNumber?_of_number hvalue,
    Value.toNumber?_of_number hother]
  change a.mul (.float x) >>= _ = _
  rw [Number.mul_float]
  cases a.toFloat? <;> rfl

end Temperature

theorem Field.mem_checked (field : Field) : field ∈ checked := by
  cases field <;> decide

namespace Params

/-! ## Regular parameters -/

/-- All four parameters are numbers. -/
def Numeric (params : Params) : Prop :=
  ∀ field, ∃ a, (params.get field).number? = some a

/-- The numbers that parameters are, each in its domain. -/
structure Regular (params : Params) (initial final : Number) (factor : Float) : Prop where
  initial_eq : params.initialTemperature.number? = some initial
  final_eq : params.finalTemperature.number? = some final
  factor_eq : params.coolingFactor.number? = some (.float factor)
  initial_pos : (Number.int 0).lt initial = true
  final_pos : (Number.int 0).lt final = true
  factor_pos : (Number.int 0).lt (.float factor) = true
  factor_lt_one : (Number.float factor).lt (.int 1) = true

theorem validate_eq_ok_iff {params checked : Params} :
    params.validate = .ok checked ↔
      checked = params ∧ ∀ field : Field, field.admits (params.get field) = .ok true := by
  have hcheck : ∀ field : Field, params.check field = .ok () ↔
      field.admits (params.get field) = .ok true := by
    intro field
    unfold check
    rw [bind_eq_ok_iff]
    constructor
    · rintro ⟨admitted, hadmits, hcheck⟩
      cases admitted with
      | true => exact hadmits
      | false => cases hcheck
    · intro hadmits
      exact ⟨true, hadmits, rfl⟩
  unfold validate
  rw [bind_eq_ok_iff]
  constructor
  · rintro ⟨⟨⟩, hforM, hsame⟩
    cases hsame
    exact ⟨rfl, fun field => (hcheck field).mp (forM_eq_ok_iff.mp hforM field field.mem_checked)⟩
  · rintro ⟨rfl, hadmits⟩
    exact ⟨(), forM_eq_ok_iff.mpr fun field _ => (hcheck field).mpr (hadmits field), rfl⟩

/-- Checking the domains compares each parameter with a number, so all that are accepted are
    numbers. -/
theorem numeric_of_validate {params checked : Params} (hvalid : params.validate = .ok checked) :
    params.Numeric := by
  intro field
  have hadmits := (validate_eq_ok_iff.mp hvalid).2 field
  cases field with
  | initialTemperature | finalTemperature => exact Value.exists_number_of_int_lt? hadmits
  | coolingFactor =>
    obtain ⟨positive, hpositive, -⟩ := bind_eq_ok_iff.mp hadmits
    exact Value.exists_number_of_int_lt? hpositive
  | sweepsPerTemperature =>
    obtain ⟨less, hless, -⟩ := bind_eq_ok_iff.mp hadmits
    exact Value.exists_number_of_lt?_int hless

theorem exists_regular {params : Params} (hnumeric : params.Numeric)
    (hvalid : params.validate = .ok params) :
    ∃ initial final factor, params.Regular initial final factor := by
  obtain ⟨initial, hinitial⟩ := hnumeric .initialTemperature
  obtain ⟨final, hfinal⟩ := hnumeric .finalTemperature
  obtain ⟨factor, hfactor⟩ := hnumeric .coolingFactor
  have hzero : (Value.int 0).number? = some (.int 0) := rfl
  have hone : (Value.int 1).number? = some (.int 1) := rfl
  have hadmits := (validate_eq_ok_iff.mp hvalid).2
  have hinitial_pos := hadmits .initialTemperature
  have hfinal_pos := hadmits .finalTemperature
  have hdomain := hadmits .coolingFactor
  simp only [Field.admits, Value.lt?_of_number hzero hinitial, Except.ok.injEq] at hinitial_pos
  simp only [Field.admits, Value.lt?_of_number hzero hfinal, Except.ok.injEq] at hfinal_pos
  simp only [Field.admits, Value.lt?_of_number hzero hfactor, Value.lt?_of_number hfactor hone]
    at hdomain
  cases hfactor_pos : (Number.int 0).lt factor with
  | false => simp [hfactor_pos, bind, Except.bind, pure, Except.pure] at hdomain
  | true =>
    have hfactor_lt : factor.lt (.int 1) = true := by
      simpa [hfactor_pos, bind, Except.bind] using hdomain
    cases factor with
    | int i =>
      -- No integer lies strictly between zero and one.
      simp only [Number.lt, decide_eq_true_eq] at hfactor_pos hfactor_lt
      omega
    | float x =>
      exact ⟨initial, final, x, hinitial, hfinal, hfactor, hinitial_pos, hfinal_pos, hfactor_pos,
        hfactor_lt⟩

/-- Doubles in their domains are regular, whatever the sweeps are. -/
theorem regular_of_float {x y c : Float} {sweeps : Value}
    (hdomains : ((Number.int 0).lt (.float x) && (Number.int 0).lt (.float y) &&
      (Number.int 0).lt (.float c) && (Number.float c).lt (.int 1)) = true) :
    (Params.mk (.float x) (.float c) (.float y) sweeps).Regular (.float x) (.float y) c := by
  simp only [Bool.and_eq_true] at hdomains
  obtain ⟨⟨⟨hinitial, hfinal⟩, hpos⟩, hlt⟩ := hdomains
  exact ⟨rfl, rfl, rfl, hinitial, hfinal, hpos, hlt⟩

/-- Regular parameters with enough sweeps are accepted. -/
theorem Regular.validate_eq {params : Params} {initial final : Number} {factor : Float}
    (hregular : params.Regular initial final factor)
    (hsweeps : Field.sweepsPerTemperature.admits params.sweepsPerTemperature = .ok true) :
    params.validate = .ok params := by
  have hzero : (Value.int 0).number? = some (.int 0) := rfl
  have hone : (Value.int 1).number? = some (.int 1) := rfl
  refine validate_eq_ok_iff.mpr ⟨rfl, fun field => ?_⟩
  cases field with
  | initialTemperature =>
    change (Value.int 0).lt? params.initialTemperature = _
    rw [Value.lt?_of_number hzero hregular.initial_eq, hregular.initial_pos]
  | finalTemperature =>
    change (Value.int 0).lt? params.finalTemperature = _
    rw [Value.lt?_of_number hzero hregular.final_eq, hregular.final_pos]
  | coolingFactor =>
    simp only [get, Field.admits, Value.lt?_of_number hzero hregular.factor_eq,
      Value.lt?_of_number hregular.factor_eq hone, hregular.factor_pos, hregular.factor_lt_one]
    rfl
  | sweepsPerTemperature => exact hsweeps

/-! ## Parameters that are read -/

/-- What is read from a map is a double in each field but one, -/
theorem exists_float_settle {field : Field} (hfield : field ≠ .sweepsPerTemperature)
    (value? : Option Value) : ∃ x, settle field value? = .float x := by
  have hdefault : ∃ x, field.default = .float x := by
    cases field with
    | sweepsPerTemperature => exact absurd rfl hfield
    | initialTemperature | coolingFactor | finalTemperature => exact ⟨_, rfl⟩
  unfold settle
  cases hparsed : value?.bind field.parse? with
  | none => exact hdefault
  | some parsed =>
    obtain ⟨value, -, hvalue⟩ := Option.bind_eq_some_iff.mp hparsed
    cases field with
    | sweepsPerTemperature => exact absurd rfl hfield
    | initialTemperature | coolingFactor | finalTemperature =>
      obtain ⟨x, -, rfl⟩ := Option.map_eq_some_iff.mp hvalue
      exact ⟨x, rfl⟩

/-- and an integer for the sweeps. -/
theorem exists_int_settle (value? : Option Value) :
    ∃ i, settle .sweepsPerTemperature value? = .int i := by
  unfold settle
  cases hparsed : value?.bind Field.sweepsPerTemperature.parse? with
  | none => exact ⟨_, rfl⟩
  | some parsed =>
    obtain ⟨value, -, hvalue⟩ := Option.bind_eq_some_iff.mp hparsed
    obtain ⟨i, -, rfl⟩ := Option.map_eq_some_iff.mp hvalue
    exact ⟨i, rfl⟩

theorem number?_settle (field : Field) (value? : Option Value) :
    ∃ a, (settle field value?).number? = some a := by
  by_cases hfield : field = .sweepsPerTemperature
  · obtain ⟨i, hi⟩ := exists_int_settle value?
    exact ⟨.int i, by rw [hfield, hi]; rfl⟩
  · obtain ⟨x, hx⟩ := exists_float_settle hfield value?
    exact ⟨.float x, by rw [hx]; rfl⟩

/-- Whatever is read has passed its check; what is read from a value is what is settled from the
    entries of a map. -/
theorem validate_of_read {supplied : Supplied} {params : Params}
    (hread : (Params.read supplied).result = .ok params) :
    params.validate = .ok params ∧ ∀ value, supplied = .value value →
      ∃ entries, params = ofFields fun field => settle field (supplied? entries field) := by
  have hentries : ∀ entries, (ofEntries entries).result = .ok params →
      params.validate = .ok params ∧
        params = ofFields fun field => settle field (supplied? entries field) := by
    intro entries hread
    obtain ⟨rfl, hadmits⟩ := validate_eq_ok_iff.mp hread
    exact ⟨validate_eq_ok_iff.mpr ⟨rfl, hadmits⟩, rfl⟩
  cases supplied with
  | params ready =>
    obtain ⟨rfl, -⟩ := validate_eq_ok_iff.mp hread
    exact ⟨hread, fun value h => by cases h⟩
  | value value =>
    cases value with
    | dict entries => exact (hentries entries hread).imp_right fun h _ _ => ⟨entries, h⟩
    | none | bool _ | int _ | float _ | text _ | list _ | tuple _ =>
      simp only [read] at hread
      split at hread
      · simp at hread
      · exact (hentries [] hread).imp_right fun h _ _ => ⟨[], h⟩

theorem numeric_and_validate_of_read {supplied : Supplied} {params : Params}
    (hread : (Params.read supplied).result = .ok params)
    (hnumeric : ∀ ready, supplied = .params ready → ready.Numeric) :
    params.Numeric ∧ params.validate = .ok params := by
  obtain ⟨hvalid, hsettled⟩ := validate_of_read hread
  refine ⟨?_, hvalid⟩
  cases supplied with
  | params ready =>
    obtain ⟨rfl, -⟩ := validate_eq_ok_iff.mp hread
    exact hnumeric _ rfl
  | value value =>
    obtain ⟨entries, rfl⟩ := hsettled value rfl
    intro field
    rw [get_ofFields]
    exact number?_settle field _

/-- Parameters that are accepted are regular: from a map always, and ready ones if they are
    numbers. -/
theorem exists_regular_of_read {supplied : Supplied} {params : Params}
    (hread : (Params.read supplied).result = .ok params)
    (hnumeric : ∀ ready, supplied = .params ready → ready.Numeric) :
    ∃ initial final factor, params.Regular initial final factor :=
  have ⟨hnumbers, hvalid⟩ := numeric_and_validate_of_read hread hnumeric
  exists_regular hnumbers hvalid

/-! ## Their schedule -/

namespace Regular

variable {params : Params} {initial final : Number} {factor : Float} {value : Value} {a : Number}

theorem hot_eq (hregular : params.Regular initial final factor) (hvalue : value.number? = some a) :
    params.schedule.hot (.ofValue value) = .ok (final.lt a) := by
  change (Temperature.ofValue value).exceeds? params.finalTemperature = .ok (final.lt a)
  rw [Temperature.exceeds?_eq, Temperature.toValue_of_number hvalue]
  exact Value.lt?_of_number hregular.final_eq hvalue

theorem cool_eq (hregular : params.Regular initial final factor)
    (hvalue : value.number? = some a) :
    params.schedule.cool (.ofValue value) =
      a.toFloat?.map fun x => .ofValue (.float (x * factor)) :=
  Temperature.mul?_of_number hvalue hregular.factor_eq

end Regular

end Params

end Annealing
