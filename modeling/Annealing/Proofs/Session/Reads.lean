import Annealing.Proofs.Decimal.Integers
import Annealing.Proofs.Session.Faults

/-! # Reads in a row

A solver makes its reads one after the other from one stream, which it starts once if it has a seed.
A read keeps nothing but what it leaves of the stream, so that calls for different numbers of reads
differ only in where they stop.

* `readCount_of_le`, `readCount_of_lt` — the number of reads goes through a double, and is either
  taken as it is or refused, as the memory has room for a table of them.
* `reads_add` — some reads and then some more.
* `sample_take` — with a seed, fewer reads are the first ones of more.
* `sample_append_iff` — without one, two calls make the reads of one.
* `sample_continues` — both for anneals of doubles, where the reads do come out.
-/

namespace Annealing

open Decimal (HasValue dyadic? pairValue)

variable {ω σ ρ : Type}

/-! ## How many reads -/

namespace Solver

variable {memory : Storage}

/-- A number of reads goes through a double, and its ceiling has to suit. -/
theorem readCount_of_ceiling {i : Int} {x : Float} {d : Decimal.Dyadic}
    (hx : Decimal.ofInt? i = some x) (hd : dyadic? x = some d) :
    readCount memory (.int i) =
      if d.ceiling < -readLimit ∨ readLimit ≤ d.ceiling * Value.itemRoom then .error .unusable
      else if memory.bytes < d.ceiling * Value.itemRoom then .error .exhausted
      else .ok d.ceiling.toNat := by
  have hgrid : (Value.int i).grid? = .ok ⟨[], [.int i]⟩ := rfl
  have hnumber : (Value.int i).toNumber? = .ok (.int i) := rfl
  simp only [readCount, hgrid, hnumber, Number.toFloat?, hx, hd, bind, Except.bind, pure,
    Except.pure, Bool.or_eq_true, decide_eq_true_eq, throw, throwThe, MonadExceptOf.throw]

/-- As many reads are made as are asked for, if there is room for a table of them. -/
theorem readCount_of_le {n : Nat} (hroom : (n : Int) * Value.itemRoom ≤ memory.bytes) :
    readCount memory (.int n) = .ok n := by
  have hsmall : (n : Int) * 8 < 2 ^ 56 := hroom.trans_lt memory.lt_addressLimit
  obtain ⟨m, e, hx, hvalue⟩ := Decimal.exists_magnitude_ofNat (n := n) (by omega)
  obtain ⟨d, hd, hceiling⟩ := hx.exists_ceiling
  rw [hvalue, Int.ceil_natCast] at hceiling
  have hfloat : Decimal.ofInt? n = some (Float.ofNat n) := if_pos hx.isFinite
  have hcountable : ¬ ((n : Int) < -readLimit ∨ readLimit ≤ (n : Int) * Value.itemRoom) := by
    change ¬ ((n : Int) < -2 ^ 63 ∨ 2 ^ 63 ≤ (n : Int) * 8)
    omega
  rw [readCount_of_ceiling hfloat hd, hceiling, if_neg hcountable, if_neg (not_lt.mpr hroom),
    Int.toNat_natCast]

/-- Beyond that no reads are made at all. -/
theorem readCount_of_lt {n : Nat} (hroom : memory.bytes < (n : Int) * Value.itemRoom) :
    ∃ fault, readCount memory (.int n) = .error fault := by
  -- A count that goes through a double stays beyond what there is room for.
  have hbeyond {x : Float} {d : Decimal.Dyadic} (hx : Decimal.ofInt? n = some x)
      (hd : dyadic? x = some d) (hceiling : memory.bytes < d.ceiling * Value.itemRoom) :
      ∃ fault, readCount memory (.int n) = .error fault := by
    rw [readCount_of_ceiling hx hd, if_pos hceiling]
    split <;> exact ⟨_, rfl⟩
  by_cases hn : n < 2 ^ 53
  · obtain ⟨m, e, hx, hvalue⟩ := Decimal.exists_magnitude_ofNat hn
    obtain ⟨d, hd, hceiling⟩ := hx.exists_ceiling
    rw [hvalue, Int.ceil_natCast] at hceiling
    exact hbeyond (if_pos hx.isFinite) hd (by rwa [hceiling])
  · obtain ⟨v, hv, hle⟩ := Decimal.exists_value_ofNat_of_le (Nat.le_of_not_lt hn)
    cases hv with
    | @finite m e hx =>
      obtain ⟨d, hd, hceiling⟩ := hx.exists_ceiling
      have hgreat : (2 ^ 53 : Int) ≤ d.ceiling := by
        rw [hceiling]
        have hle := (WithTop.coe_le_coe.mp hle).trans (Int.le_ceil (pairValue m e))
        exact_mod_cast hle
      have hbytes : memory.bytes < 2 ^ 56 := memory.lt_addressLimit
      have hlimit : memory.bytes < d.ceiling * 8 := by omega
      exact hbeyond (if_pos hx.isFinite) hd hlimit
    | infinite hx =>
      have hnone : Decimal.ofInt? n = none :=
        if_neg fun hfinite => (HasValue.infinite hx).ne_top_of_isFinite hfinite rfl
      have hgrid : (Value.int n).grid? = .ok ⟨[], [.int n]⟩ := rfl
      have hnumber : (Value.int n).toNumber? = .ok (.int n) := rfl
      refine ⟨.unusable, ?_⟩
      simp only [readCount, hgrid, hnumber, Number.toFloat?, hnone, bind, Except.bind, throw,
        throwThe, MonadExceptOf.throw]

theorem room_of_le {k m : Nat} (hle : k ≤ m)
    (hroom : (m : Int) * Value.itemRoom ≤ memory.bytes) :
    (k : Int) * Value.itemRoom ≤ memory.bytes := by
  have hcast : (k : Int) ≤ m := by exact_mod_cast hle
  exact (Int.mul_le_mul_of_nonneg_right hcast (by decide)).trans hroom

/-! ## Reads one after the other -/

section Reads

variable [OfNat ω 0] [Add ω] [Neg ω] {engine : Engine ω σ ρ} {solver : Solver} {graph : Graph ω}

theorem reads_eq (count : Nat) (earlier : List (Sample ω)) (stream : σ) :
    solver.reads engine graph count earlier stream =
      ((solver.reads engine graph count [] stream).1.map (earlier.reverse ++ ·),
        (solver.reads engine graph count [] stream).2) := by
  induction count generalizing earlier stream with
  | zero => simp [reads, Except.map]
  | succ count ih =>
    simp only [reads]
    cases lastRead graph (solver.anneal engine graph [] stream) with
    | error fault => rfl
    | ok sample =>
      simp only
      rw [ih, ih [sample]]
      generalize (solver.anneal engine graph [] stream).stream = after
      cases (solver.reads engine graph count [] after).1 with
      | error fault => rfl
      | ok rows => simp [Except.map]

/-- Reads are made from the stream that those before them left behind. -/
theorem reads_add (k m : Nat) (stream : σ) :
    solver.reads engine graph (k + m) [] stream =
      match solver.reads engine graph k [] stream with
      | (.error fault, after) => (.error fault, after)
      | (.ok rows, after) =>
        ((solver.reads engine graph m [] after).1.map (rows ++ ·),
          (solver.reads engine graph m [] after).2) := by
  induction k generalizing stream with
  | zero =>
    rw [Nat.zero_add]
    exact reads_eq m [] stream
  | succ k ih =>
    rw [Nat.add_right_comm]
    simp only [reads]
    cases lastRead graph (solver.anneal engine graph [] stream) with
    | error fault => rfl
    | ok sample =>
      simp only
      rw [reads_eq, ih, reads_eq k [sample]]
      generalize solver.reads engine graph k []
        (solver.anneal engine graph [] stream).stream = first
      obtain ⟨result, after⟩ := first
      cases result with
      | error fault => rfl
      | ok rows =>
        simp only [Except.map]
        cases (solver.reads engine graph m [] after).1 with
        | error fault => rfl
        | ok more => simp

/-- Reads come out in two parts if and only if they come out in one. -/
theorem reads_add_eq_ok_iff {k m : Nat} {stream final : σ} {rows : List (Sample ω)} :
    solver.reads engine graph (k + m) [] stream = (.ok rows, final) ↔
      ∃ first after second, solver.reads engine graph k [] stream = (.ok first, after) ∧
        solver.reads engine graph m [] after = (.ok second, final) ∧ rows = first ++ second := by
  rw [reads_add]
  generalize solver.reads engine graph k [] stream = head
  obtain ⟨result, after⟩ := head
  cases result with
  | error fault => simp
  | ok first =>
    simp only
    cases hrest : solver.reads engine graph m [] after with
    | mk result last =>
      cases result with
      | error fault => simp [Except.map, hrest]
      | ok second => simp [Except.map, hrest, and_comm, eq_comm]

theorem length_reads {count : Nat} {earlier rows : List (Sample ω)} {stream : σ}
    (hreads : (solver.reads engine graph count earlier stream).1 = .ok rows) :
    rows.length = earlier.length + count := by
  induction count generalizing earlier stream with
  | zero =>
    cases hreads
    simp
  | succ count ih =>
    rw [reads] at hreads
    split at hreads
    · cases hreads
    · rw [ih hreads, List.length_cons]
      omega

/-- Reads that come out are those of a graph that is built, from a stream that is started once, and
    there is room for them. -/
theorem sample_eq_ok_iff {n : Nat} {stream final : σ} {rows : List (Sample ω)} :
    solver.sample engine (.int n) stream = (.ok rows, final) ↔
      (n : Int) * Value.itemRoom ≤ engine.memory.bytes ∧
        ∃ graph start, solver.graph engine = .ok graph ∧
          engine.source.streamFor solver.seed? stream = .ok start ∧
          solver.reads engine graph n [] start = (.ok rows, final) := by
  unfold sample
  cases hgraph : solver.graph engine with
  | error fault => simp
  | ok graph =>
    cases hstart : engine.source.streamFor solver.seed? stream with
    | error fault => simp
    | ok start =>
      by_cases hroom : (n : Int) * Value.itemRoom ≤ engine.memory.bytes
      · simp [readCount_of_le hroom, hroom]
      · obtain ⟨fault, hcount⟩ := readCount_of_lt (not_le.mp hroom)
        simp [hcount, hroom]

theorem length_sample {n : Nat} {stream : σ} {rows : List (Sample ω)}
    (hrows : (solver.sample engine (.int n) stream).1 = .ok rows) : rows.length = n := by
  obtain ⟨-, graph, start, -, -, hreads⟩ := sample_eq_ok_iff.mp (Prod.ext hrows rfl)
  simpa using length_reads (congrArg Prod.fst hreads)

/-- From a seed every call makes the same reads, as many of them as are asked for. -/
theorem sample_take {seed : Int} (hseed : solver.seed? = some seed) {k m : Nat} (hle : k ≤ m)
    {stream : σ} {rows : List (Sample ω)}
    (hrows : (solver.sample engine (.int m) stream).1 = .ok rows) (other : σ) :
    (solver.sample engine (.int k) other).1 = .ok (rows.take k) := by
  obtain ⟨hroom, graph, start, hgraph, hstart, hreads⟩ := sample_eq_ok_iff.mp (Prod.ext hrows rfl)
  rw [hseed] at hstart
  obtain ⟨more, rfl⟩ := Nat.exists_eq_add_of_le hle
  obtain ⟨first, after, second, hfirst, -, rfl⟩ := reads_add_eq_ok_iff.mp hreads
  have hlength : first.length = k := by
    simpa using length_reads (congrArg Prod.fst hfirst)
  have hless : (k : Int) * Value.itemRoom ≤ engine.memory.bytes := room_of_le hle hroom
  rw [sample_eq_ok_iff.mpr ⟨hless, graph, start, hgraph, by rw [hseed]; exact hstart, hfirst⟩,
    ← hlength, List.take_left]

/-- Without a seed a call goes on from where the one before it stopped. -/
theorem sample_append_iff (hseed : solver.seed? = none) {k m : Nat} {stream final : σ}
    {rows : List (Sample ω)} :
    solver.sample engine (.int (k + m : Nat)) stream = (.ok rows, final) ↔
      ((k + m : Nat) : Int) * Value.itemRoom ≤ engine.memory.bytes ∧
        ∃ first after second, solver.sample engine (.int k) stream = (.ok first, after) ∧
          solver.sample engine (.int m) after = (.ok second, final) ∧ rows = first ++ second := by
  have hstart (stream : σ) : engine.source.streamFor solver.seed? stream = .ok stream := by
    rw [hseed]
    rfl
  rw [sample_eq_ok_iff]
  constructor
  · rintro ⟨hroom, graph, start, hgraph, hstarted, hreads⟩
    obtain rfl : stream = start := by rwa [hstart, Except.ok.injEq] at hstarted
    obtain ⟨first, after, second, hfirst, hsecond, hrows⟩ := reads_add_eq_ok_iff.mp hreads
    refine ⟨hroom, first, after, second, ?_, ?_, hrows⟩
    · exact sample_eq_ok_iff.mpr
        ⟨room_of_le (Nat.le_add_right k m) hroom, graph, stream, hgraph, hstart stream, hfirst⟩
    · exact sample_eq_ok_iff.mpr
        ⟨room_of_le (Nat.le_add_left m k) hroom, graph, after, hgraph, hstart after, hsecond⟩
  · rintro ⟨hroom, first, after, second, hfirst, hsecond, hrows⟩
    obtain ⟨-, graph, start, hgraph, hstarted, hfirst⟩ := sample_eq_ok_iff.mp hfirst
    obtain ⟨-, graph', start', hgraph', hstarted', hsecond⟩ := sample_eq_ok_iff.mp hsecond
    obtain rfl : stream = start := by rwa [hstart, Except.ok.injEq] at hstarted
    obtain rfl : after = start' := by rwa [hstart, Except.ok.injEq] at hstarted'
    obtain rfl : graph = graph' := by rwa [hgraph, Except.ok.injEq] at hgraph'
    exact ⟨hroom, graph, stream, hgraph, hstart stream,
      reads_add_eq_ok_iff.mpr ⟨first, after, second, hfirst, hsecond, hrows⟩⟩

end Reads

/-! ## Reads of doubles -/

section Doubles

variable {exp : Float → Float} {source : Source σ Float} {memory : Storage} {solver : Solver}
  {graph : Graph Float}

/-- A solver whose graph is built, with accepted parameters that work and whose schedule ends.  With
    a seed, a call for `k` reads gives the first `k` of those that any call for `m` reads gives, if
    `m` is no less.  Without one, a call for `k` reads and then one for `m` give the same reads, and
    leave the same stream behind, as a single call for `k + m` from where the first one started.
    All of these calls do give as many reads as are asked for, if the memory has room for a table of
    them.  In a memory that has none they fail. -/
theorem sample_continues (hvalid : solver.params.validate = .ok solver.params)
    (hgraph : solver.graph (Engine.doubles exp source memory) = .ok graph)
    (hworkable : solver.params.Workable graph.size) {n : Nat}
    (hends : solver.params.schedule.countSteps stepLimit = .ok (some n)) :
    let engine := Engine.doubles exp source memory
    (∀ seed, solver.seed? = some seed → 0 ≤ seed ∧ seed < Nat.pow 2 32 →
      ∀ k m : Nat, k ≤ m → (m : Int) * Value.itemRoom ≤ memory.bytes → ∀ stream other,
        ∃ rows, (solver.sample engine (.int m) stream).1 = .ok rows ∧ rows.length = m ∧
          (solver.sample engine (.int k) other).1 = .ok (rows.take k)) ∧
    (solver.seed? = none →
      ∀ k m : Nat, ((k + m : Nat) : Int) * Value.itemRoom ≤ memory.bytes → ∀ stream,
        ∃ first after second final, solver.sample engine (.int k) stream = (.ok first, after) ∧
          solver.sample engine (.int m) after = (.ok second, final) ∧
          solver.sample engine (.int (k + m : Nat)) stream = (.ok (first ++ second), final) ∧
          first.length = k ∧ second.length = m) ∧
    ∀ m : Nat, memory.bytes < (m : Int) * Value.itemRoom → ∀ stream,
      ∃ fault, (solver.sample engine (.int m) stream).1 = .error fault := by
  intro engine
  have hread : ∀ start, ∃ row, lastRead graph (solver.anneal engine graph [] start) = .ok row := by
    intro start
    obtain ⟨row, hread, -⟩ := exists_tells_of_workable hvalid hworkable hends start
    exact ⟨row, hread⟩
  have hsample {m : Nat} {stream start : σ} (hroom : (m : Int) * Value.itemRoom ≤ memory.bytes)
      (hstart : source.streamFor solver.seed? stream = .ok start) :
      ∃ rows final, solver.sample engine (.int m) stream = (.ok rows, final) := by
    obtain ⟨rows, hreads, -⟩ := exists_reads hread m [] start
    exact ⟨rows, _, sample_eq_ok_iff.mpr ⟨hroom, graph, start, hgraph, hstart, Prod.ext hreads rfl⟩⟩
  refine ⟨?_, ?_, ?_⟩
  · intro seed hseed hrange k m hle hroom stream other
    have hunique : ∀ seed', solver.seed? = some seed' → 0 ≤ seed' ∧ seed' < Nat.pow 2 32 := by
      simpa [hseed] using hrange
    obtain ⟨start, hstart⟩ := source.exists_streamFor hunique stream
    obtain ⟨rows, final, hrows⟩ := hsample hroom hstart
    have hfirst := congrArg Prod.fst hrows
    exact ⟨rows, hfirst, length_sample hfirst, sample_take hseed hle hfirst other⟩
  · intro hseed k m hroom stream
    have hstart : source.streamFor solver.seed? stream = .ok stream := by
      rw [hseed]
      rfl
    obtain ⟨rows, final, hrows⟩ := hsample hroom hstart
    obtain ⟨-, first, after, second, hfirst, hsecond, rfl⟩ := (sample_append_iff hseed).mp hrows
    exact ⟨first, after, second, final, hfirst, hsecond, hrows,
      length_sample (congrArg Prod.fst hfirst), length_sample (congrArg Prod.fst hsecond)⟩
  · intro m hroom stream
    cases hrows : (solver.sample engine (.int m) stream).1 with
    | error fault => exact ⟨fault, rfl⟩
    | ok rows =>
      obtain ⟨hfits, -⟩ := sample_eq_ok_iff.mp (Prod.ext hrows rfl)
      exact absurd hroom (not_lt.mpr hfits)

theorem sample_continues_sample :
    let engine := Engine.doubles Float.exp Twister.source .gibibyte
    let solver := { sampler with seed? := none }
    (∃ rows, (sampler.sample engine (.int 5) (Twister.seeded 0)).1 = .ok rows ∧ rows.length = 5 ∧
      (sampler.sample engine (.int 2) (Twister.seeded 7)).1 = .ok (rows.take 2)) ∧
    ∃ first after second final,
      solver.sample engine (.int 2) (Twister.seeded 3) = (.ok first, after) ∧
        solver.sample engine (.int 3) after = (.ok second, final) ∧
        solver.sample engine (.int 5) (Twister.seeded 3) = (.ok (first ++ second), final) ∧
        first.length = 2 ∧ second.length = 3 := by
  intro engine solver
  obtain ⟨graph, hgraph⟩ : ∃ graph, sampler.graph engine = .ok graph := ⟨_, rfl⟩
  have hworkable : Params.sample.Workable graph.size := fun _ => ⟨⟨10, rfl⟩, .inr ⟨5, rfl⟩⟩
  have hends : Params.sample.schedule.countSteps stepLimit = .ok (some 4) := rfl
  have hvalid : sampler.params.validate = .ok sampler.params := rfl
  have hvalid' : solver.params.validate = .ok solver.params := rfl
  obtain ⟨hseeded, -, -⟩ := sample_continues hvalid hgraph hworkable hends
  obtain ⟨-, hunseeded, -⟩ := sample_continues hvalid' hgraph hworkable hends
  exact ⟨hseeded 1 rfl (by decide) 2 5 (by decide) (by decide) _ _,
    hunseeded rfl 2 3 (by decide) (Twister.seeded 3)⟩

end Doubles

end Solver

end Annealing
