/-!
# Ledgers

A ledger holds one total per key, in the order in which the keys first appear.  Booking an amount
adds it on the right of the total of its key, and a total starts at zero, so each total is a sum
from the left of all amounts booked under its key.
-/

namespace Annealing

/-- Totals by key, in the order in which the keys first appear. -/
abbrev Ledger (κ ω : Type) := List (κ × ω)

namespace Ledger

variable {κ ω : Type} [DecidableEq κ] [OfNat ω 0] [Add ω]

def book (key : κ) (amount : ω) : Ledger κ ω → Ledger κ ω
  | [] => [(key, 0 + amount)]
  | (k, total) :: rest =>
    if k = key then (k, total + amount) :: rest else (k, total) :: book key amount rest

/-- The keys, in the order in which they first appear. -/
def keys (ledger : Ledger κ ω) : List κ :=
  ledger.map Prod.fst

/-- The total of a key, if anything is booked under it. -/
def total? (key : κ) : Ledger κ ω → Option ω
  | [] => none
  | (k, total) :: rest => if k = key then some total else total? key rest

theorem total?_book_self (key : κ) (amount : ω) (ledger : Ledger κ ω) :
    (book key amount ledger).total? key = some ((ledger.total? key).getD 0 + amount) := by
  induction ledger with
  | nil => simp [book, total?]
  | cons entry rest ih =>
    obtain ⟨k, total⟩ := entry
    by_cases hk : k = key <;> simp [book, total?, hk, ih]

theorem total?_book_of_ne {key other : κ} (hne : other ≠ key) (amount : ω)
    (ledger : Ledger κ ω) : (book key amount ledger).total? other = ledger.total? other := by
  induction ledger with
  | nil => simp [book, total?, Ne.symm hne]
  | cons entry rest ih =>
    obtain ⟨k, total⟩ := entry
    by_cases hk : k = key
    · subst hk
      simp [book, total?, Ne.symm hne]
    · rw [book, if_neg hk]
      simp only [total?, ih]

end Ledger

end Annealing
