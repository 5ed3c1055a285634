import Annealing.Proofs.Problem.Terms
import Mathlib.Data.List.Nodup

/-! # What the entries of a graph add up to

Booking entries one by one leaves, at each place, the sum from the left of all weights that are
booked there.  Nothing is asked of the addition.

* `amounts` — the weights booked at a place, in map order.
* `getD_biases` — the bias of a node is the left sum of its amounts.
* `mem_couplings_iff` — the couplings are the pairs that are named, each with the left sum of its
  amounts.
* `Place.Within` — a place of the graph; `Key.place_within` — keys lead to nothing else.
-/

namespace Annealing

/-! ## Places -/

/-- A place among `n` nodes; the lesser end of a coupling comes first. -/
def Place.Within (n : Nat) : Place → Prop
  | .bias i => i < n
  | .coupling i j => i < j ∧ j < n

/-- The place of a key whose variables are all listed is one of the list's nodes. -/
theorem Key.place_within {key : Key} {ids : List Int} (hmem : ∀ v ∈ key.vars, v ∈ ids) :
    (key.place (ids.idxOf ·)).Within ids.length := by
  cases key with
  | one i => exact List.idxOf_lt_length_of_mem (hmem i (by simp [Key.vars]))
  | two i j =>
    have hi : i ∈ ids := hmem i (by simp [Key.vars])
    have hj : j ∈ ids := hmem j (by simp [Key.vars])
    have hilt := List.idxOf_lt_length_of_mem hi
    have hjlt := List.idxOf_lt_length_of_mem hj
    by_cases hij : i = j
    · simp only [Key.place, if_pos hij]
      exact hilt
    · have hnodes : ids.idxOf i ≠ ids.idxOf j := fun h => hij ((List.idxOf_inj hi).mp h)
      simp only [Key.place, if_neg hij, Place.Within]
      omega

namespace Graph

variable {ω : Type}

/-! ## Amounts -/

/-- The weights that are booked at a place, in order. -/
def amounts (place : Place) (entries : List (Place × ω)) : List ω :=
  (entries.filter (·.1 = place)).map Prod.snd

@[simp] theorem amounts_nil (place : Place) : amounts place ([] : List (Place × ω)) = [] := rfl

theorem amounts_cons_self (place : Place) (w : ω) (entries : List (Place × ω)) :
    amounts place ((place, w) :: entries) = w :: amounts place entries := by
  simp [amounts]

theorem amounts_cons_of_ne {place other : Place} (hne : other ≠ place) (w : ω)
    (entries : List (Place × ω)) :
    amounts place ((other, w) :: entries) = amounts place entries := by
  simp [amounts, hne]

theorem amounts_eq_nil_iff {place : Place} {entries : List (Place × ω)} :
    amounts place entries = [] ↔ ∀ entry ∈ entries, entry.1 ≠ place := by
  simp [amounts]

section Sums

variable [OfNat ω 0] [Add ω]

/-- The sum from the left, starting at zero. -/
def leftSum (ws : List ω) : ω :=
  ws.foldl (· + ·) 0

/-! ## Biases -/

omit [OfNat ω 0] in
@[simp] theorem size_bookBias (sums : Array ω) (entry : Place × ω) :
    (bookBias sums entry).size = sums.size := by
  unfold bookBias
  split <;> simp

/-- Booking adds to each bias the amounts booked there, one after the other. -/
theorem foldl_bookBias (entries : List (Place × ω)) (sums : Array ω) :
    (entries.foldl bookBias sums).size = sums.size ∧
      ∀ i < sums.size, (entries.foldl bookBias sums).getD i 0 =
        (amounts (.bias i) entries).foldl (· + ·) (sums.getD i 0) := by
  induction entries generalizing sums with
  | nil => simp
  | cons entry entries ih =>
    obtain ⟨hsize, hget⟩ := ih (bookBias sums entry)
    rw [size_bookBias] at hsize hget
    refine ⟨hsize, fun i hi => ?_⟩
    rw [List.foldl_cons, hget i hi]
    obtain ⟨place, w⟩ := entry
    by_cases hplace : place = .bias i
    · subst hplace
      have hbooked : (bookBias sums (.bias i, w)).getD i 0 = sums.getD i 0 + w := by
        simp [bookBias, Array.getElem_modify, hi]
      rw [amounts_cons_self, List.foldl_cons, hbooked]
    -- The bias of another node is booked elsewhere, and a coupling not among the biases.
    · have hkept : (bookBias sums (place, w)).getD i 0 = sums.getD i 0 := by
        cases place with
        | bias k =>
          have hki : k ≠ i := fun h => hplace (h ▸ rfl)
          simp [bookBias, Array.getElem_modify, hi, hki]
        | coupling a b => rfl
      rw [amounts_cons_of_ne hplace, hkept]

@[simp] theorem size_biases (n : Nat) (entries : List (Place × ω)) :
    (biases n entries).size = n := by
  rw [biases, (foldl_bookBias entries _).1, Array.size_replicate]

theorem getD_biases {n i : Nat} (hi : i < n) (entries : List (Place × ω)) :
    (biases n entries).getD i 0 = leftSum (amounts (.bias i) entries) := by
  rw [biases, (foldl_bookBias entries _).2 i (by simpa using hi)]
  simp [leftSum, hi]

/-! ## Couplings -/

/-- Booking leaves under each pair of nodes its earlier total plus the amounts booked there. -/
theorem total?_foldl_bookCoupling (entries : List (Place × ω)) (ledger : Ledger (Nat × Nat) ω)
    (i j : Nat) :
    (entries.foldl bookCoupling ledger).total? (i, j) =
      if amounts (.coupling i j) entries = [] then ledger.total? (i, j)
      else some ((amounts (.coupling i j) entries).foldl (· + ·)
        ((ledger.total? (i, j)).getD 0)) := by
  induction entries generalizing ledger with
  | nil => rfl
  | cons entry entries ih =>
    rw [List.foldl_cons, ih]
    obtain ⟨place, w⟩ := entry
    by_cases hplace : place = .coupling i j
    · subst hplace
      have hbooked : (bookCoupling ledger (.coupling i j, w)).total? (i, j) =
          some ((ledger.total? (i, j)).getD 0 + w) := Ledger.total?_book_self _ _ _
      rw [amounts_cons_self, hbooked]
      cases amounts (.coupling i j) entries <;> simp
    · have hkept : (bookCoupling ledger (place, w)).total? (i, j) = ledger.total? (i, j) := by
        cases place with
        | bias k => rfl
        | coupling a b =>
          exact Ledger.total?_book_of_ne (fun h => hplace (by cases h; rfl)) _ _
      rw [amounts_cons_of_ne hplace, hkept]

theorem total?_couplings (entries : List (Place × ω)) (i j : Nat) :
    (couplings entries).total? (i, j) =
      if amounts (.coupling i j) entries = [] then none
      else some (leftSum (amounts (.coupling i j) entries)) :=
  total?_foldl_bookCoupling entries [] i j

end Sums

end Graph

namespace Ledger

variable {κ ω : Type} [DecidableEq κ] [OfNat ω 0] [Add ω]

/-- Booking keeps the keys, and adds a new one at the end. -/
theorem keys_book (key : κ) (amount : ω) (ledger : Ledger κ ω) :
    (book key amount ledger).keys =
      if key ∈ ledger.keys then ledger.keys else ledger.keys ++ [key] := by
  induction ledger with
  | nil => simp [book, keys]
  | cons entry rest ih =>
    obtain ⟨k, total⟩ := entry
    by_cases hk : k = key
    · simp [book, keys, hk]
    · have hkeys : (book key amount ((k, total) :: rest)).keys =
          k :: (book key amount rest).keys := by
        simp [book, keys, hk]
      have hmem : key ∈ keys ((k, total) :: rest) ↔ key ∈ keys rest := by
        simp [keys, Ne.symm hk]
      rw [hkeys, ih, if_congr hmem rfl rfl]
      split <;> simp [keys]

theorem nodup_keys_book (key : κ) (amount : ω) {ledger : Ledger κ ω}
    (hnodup : ledger.keys.Nodup) : (book key amount ledger).keys.Nodup := by
  rw [keys_book]
  split
  · exact hnodup
  · rename_i hkey
    exact List.nodup_append'.mpr ⟨hnodup, List.nodup_singleton key, by simpa using hkey⟩

omit [OfNat ω 0] [Add ω] in
/-- Where no key appears twice, an entry is found under its key. -/
theorem total?_eq_some_iff {key : κ} {total : ω} {ledger : Ledger κ ω}
    (hnodup : ledger.keys.Nodup) : ledger.total? key = some total ↔ (key, total) ∈ ledger := by
  induction ledger with
  | nil => simp [total?]
  | cons entry rest ih =>
    obtain ⟨k, t⟩ := entry
    obtain ⟨hk, hrest⟩ := List.nodup_cons.mp hnodup
    by_cases hkey : k = key
    · subst hkey
      have habsent : (k, total) ∉ rest := fun h => hk (List.mem_map.mpr ⟨_, h, rfl⟩)
      simp [total?, habsent, eq_comm]
    · simp [total?, hkey, ih hrest, Ne.symm hkey]

end Ledger

namespace Graph

variable {ω : Type} [OfNat ω 0] [Add ω]

theorem nodup_keys_foldl_bookCoupling (entries : List (Place × ω))
    {ledger : Ledger (Nat × Nat) ω} (hnodup : ledger.keys.Nodup) :
    (entries.foldl bookCoupling ledger).keys.Nodup := by
  induction entries generalizing ledger with
  | nil => exact hnodup
  | cons entry entries ih =>
    obtain ⟨place, w⟩ := entry
    cases place with
    | bias k => exact ih hnodup
    | coupling a b => exact ih (Ledger.nodup_keys_book _ _ hnodup)

/-- No pair of nodes has two couplings. -/
theorem nodup_keys_couplings (entries : List (Place × ω)) : (couplings entries).keys.Nodup :=
  nodup_keys_foldl_bookCoupling entries List.nodup_nil

/-- The couplings are the pairs of nodes that are named, each with the left sum of its
    amounts. -/
theorem mem_couplings_iff {entries : List (Place × ω)} {i j : Nat} {w : ω} :
    ((i, j), w) ∈ couplings entries ↔
      amounts (.coupling i j) entries ≠ [] ∧ w = leftSum (amounts (.coupling i j) entries) := by
  rw [← Ledger.total?_eq_some_iff (nodup_keys_couplings entries), total?_couplings]
  split
  · rename_i hnone
    simp [hnone]
  · rename_i hsome
    simp [hsome, eq_comm]

theorem mem_keys_couplings_iff {entries : List (Place × ω)} {i j : Nat} :
    (i, j) ∈ (couplings entries).keys ↔ ∃ entry ∈ entries, entry.1 = .coupling i j := by
  have hnamed : amounts (.coupling i j) entries ≠ [] ↔
      ∃ entry ∈ entries, entry.1 = .coupling i j := by
    rw [ne_eq, amounts_eq_nil_iff]
    push Not
    rfl
  rw [← hnamed, Ledger.keys, List.mem_map]
  constructor
  · rintro ⟨⟨pair, w⟩, hmem, rfl⟩
    exact (mem_couplings_iff.mp hmem).1
  · intro hne
    exact ⟨((i, j), _), mem_couplings_iff.mpr ⟨hne, rfl⟩, rfl⟩

end Graph

end Annealing
