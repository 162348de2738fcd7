import ScoreScript.Numeric.LittleEndian

/-!
# Readers with a budget

A reader takes bytes from the front of its input.  Before it takes them it pays for the value that
it is about to make, from a budget that bounds how much one input may unfold to.  A reader that runs
out of bytes or of budget fails.

* `Reader.claim`, `Reader.take` — pay, and take bytes;
* `Reader.andThen_eq_some_iff` — what a sequence of readers makes;
* `takeExact_append` — taking as many bytes as a list has gives that list.
-/

namespace ScoreScript

/-- The bytes and the budget that are left. -/
structure Cursor where
  bytes : List UInt8
  budget : Nat

/-- A reader of values. -/
def Reader (α : Type) : Type :=
  Cursor → Option (α × Cursor)

/-- Exactly `count` items from the front of a list, and the items after them. -/
def takeExact {α : Type} : (count : Nat) → List α → Option (List α × List α)
  | 0, xs => some ([], xs)
  | _ + 1, [] => none
  | count + 1, x :: rest => (takeExact count rest).map fun (taken, rest) => (x :: taken, rest)

theorem takeExact_append {α : Type} (xs rest : List α) :
    takeExact xs.length (xs ++ rest) = some (xs, rest) := by
  induction xs with
  | nil => rfl
  | cons x xs ih => simp [takeExact, ih]

namespace Reader

variable {α β : Type}

/-- The reader that takes nothing. -/
def succeed (value : α) : Reader α := fun c => some (value, c)

/-- The reader that fails. -/
def fail : Reader α := fun _ => none

/-- One reader after another. -/
def andThen (x : Reader α) (f : α → Reader β) : Reader β := fun c =>
  match x c with
  | none => none
  | some (value, rest) => f value rest

instance : Monad Reader where
  pure := succeed
  bind := andThen

/-- Pays for a value. -/
def claim (cost : Nat) : Reader Unit := fun c =>
  if cost ≤ c.budget then some ((), { c with budget := c.budget - cost }) else none

/-- Takes bytes. -/
def take (count : Nat) : Reader (List UInt8) := fun c =>
  match takeExact count c.bytes with
  | none => none
  | some (taken, rest) => some (taken, { c with bytes := rest })

/-- The result of a reader on a whole input.  Bytes behind the value are left alone. -/
def run (x : Reader α) (budget : Nat) (bytes : List UInt8) : Option α :=
  (x ⟨bytes, budget⟩).map (·.1)

/-- As many values as asked for, in order. -/
def times (x : Reader α) : Nat → Reader (List α)
  | 0 => pure []
  | count + 1 => do
    let first ← x
    let others ← times x count
    return first :: others

theorem andThen_eq_some_iff {x : Reader α} {f : α → Reader β} {c rest : Cursor} {b : β} :
    (x >>= f) c = some (b, rest) ↔ ∃ a mid, x c = some (a, mid) ∧ f a mid = some (b, rest) := by
  show andThen x f c = _ ↔ _
  unfold andThen
  cases hx : x c with
  | none => simp
  | some found =>
    obtain ⟨a, mid⟩ := found
    grind

theorem take_append (taken rest : List UInt8) (budget : Nat) :
    take taken.length ⟨taken ++ rest, budget⟩ = some (taken, ⟨rest, budget⟩) := by
  simp [take, takeExact_append]

end Reader

end ScoreScript
