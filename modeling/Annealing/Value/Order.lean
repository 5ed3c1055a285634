import Annealing.Value.Arithmetic

/-!
# Equality and order of supplied values

Numbers are equal by value, whatever their kind.  Texts, lists and tuples are equal to their own
kind only, part by part; two maps are equal if each entry of the one is in the other.

Numbers are ordered by value and texts by their code points.  Two lists, or two tuples, are ordered
by the first place at which they differ, and by length if there is none.  All other values have
no order, and to ask for it is a fault.
-/

namespace Annealing.Value

mutual

def eq : Value → Value → Bool
  | none, none => true
  | text s, text t => s == t
  | list xs, list ys => eqAll xs ys
  | tuple xs, tuple ys => eqAll xs ys
  | dict xs, dict ys => xs.length == ys.length && eqEntries xs ys
  | a, b =>
    match a.number?, b.number? with
    | some x, some y => x.eq y
    | _, _ => false

/-- Are two sequences equal, item by item? -/
def eqAll : List Value → List Value → Bool
  | [], [] => true
  | x :: xs, y :: ys => eq x y && eqAll xs ys
  | _, _ => false

/-- Is each entry of the first map in the second? -/
def eqEntries : List (Value × Value) → List (Value × Value) → Bool
  | [], _ => true
  | (key, value) :: rest, ys =>
    ys.any (fun y => eq key y.1 && eq value y.2) && eqEntries rest ys

end

mutual

def lt? : Value → Value → Except Fault Bool
  | text s, text t => .ok (s < t)
  | list xs, list ys => ltAll? xs ys
  | tuple xs, tuple ys => ltAll? xs ys
  | a, b => do return (← a.toNumber?).lt (← b.toNumber?)

/-- The first sequence comes before the second. -/
def ltAll? : List Value → List Value → Except Fault Bool
  | [], ys => .ok (!ys.isEmpty)
  | _ :: _, [] => .ok false
  | x :: xs, y :: ys => if eq x y then ltAll? xs ys else lt? x y

end

/-- The first value is less than the second or equal to it.  Sequences that are equal are in
    order even if their items have none. -/
def le? : Value → Value → Except Fault Bool
  | text s, text t => .ok (s ≤ t)
  | list xs, list ys => if eqAll xs ys then .ok true else ltAll? xs ys
  | tuple xs, tuple ys => if eqAll xs ys then .ok true else ltAll? xs ys
  | a, b => do
    let x ← a.toNumber?
    let y ← b.toNumber?
    return x.lt y || x.eq y

/-! ## Beginnings

A sequence is compared by its beginning: what comes after more items than the other sequence has
makes no difference. -/

theorem ltAll?_append (xs ys rest : List Value) (h : xs.length < ys.length) :
    ltAll? xs (ys ++ rest) = ltAll? xs ys := by
  induction xs generalizing ys with
  | nil =>
    cases ys with
    | nil => simp at h
    | cons y ys => simp [ltAll?]
  | cons x xs ih =>
    cases ys with
    | nil => simp at h
    | cons y ys =>
      simp only [List.cons_append, ltAll?]
      rw [ih ys (by simpa using h)]

theorem lt_append {s t rest : List Char} (h : s.length < t.length) : s < t ++ rest ↔ s < t := by
  induction s generalizing t with
  | nil =>
    cases t with
    | nil => simp at h
    | cons c t => simp
  | cons b s ih =>
    cases t with
    | nil => simp at h
    | cons c t =>
      have beginning := ih (t := t) (by simpa using h)
      simp [List.cons_lt_cons_iff, beginning]

end Annealing.Value
