import ScoreScript.Numeric.Rounding
import ScoreScript.Random.Stream

/-!
# Choices from random words

Four distributions, each from as many words as it takes:

* `Draw.repeats` — how many times in a row an event of a given probability happens, one 64-bit word
  for each trial;
* `Draw.below` — a binary64 number from 0 up to a limit, 52 random bits at a time;
* `Draw.index` — a position in a list of a given length, one 32-bit word at a time; words that
  would make some positions likelier than others are passed over;
* `Draw.element` — a member of a list, or nothing, without a draw, from the empty list.

A word that is not accepted is followed by another, and the budget of the stream bounds how long
that goes on.  `Draw.index_lt` says that a position is inside the list, and `Draw.element_eq_done`
that a member is drawn from every list but the empty one.  None of them ever fails.
-/

namespace ScoreScript.Draw

variable {σ ε α : Type}

/-! ### Repeated events -/

/-- An event of probability `p` happens on a word below `2 ^ 64 * p`. -/
def happens (p : Float) (word : UInt64) : Bool :=
  word < (p * 18446744073709551616.0).toUInt64

/-- How often the event happens before it fails to, added to `count`. -/
def repeatsFrom (p : Float) (count : Nat) (s : Stream σ) : Outcome σ ε Nat :=
  match _htake : s.take64 with
  | none => .dry
  | some (word, rest) =>
    if happens p word then repeatsFrom p (count + 1) rest else .done count rest
termination_by s.budget
decreasing_by rw [Stream.take64_budget _htake]; exact Nat.lt_succ_self _

/-- How often an event of probability `p` happens before it fails to for the first time. -/
def repeats (p : Float) : Draw σ ε Nat :=
  repeatsFrom p 0

/-! ### Numbers below a limit -/

/-- A number from 0 up to 1 made of the 52 high bits of a word. -/
def unit (word : UInt64) : Float :=
  Float.ofBits ((word >>> 12) ||| 0x3FF0000000000000) - 1.0

/-- A number from 0 up to the limit.  Rounding may reach the limit itself; such a number is not
accepted. -/
def below (limit : Float) (s : Stream σ) : Outcome σ ε Float :=
  match _htake : s.take64 with
  | none => .dry
  | some (word, rest) =>
    let x := unit word * limit + 0.0
    if x < limit then .done x rest else below limit rest
termination_by s.budget
decreasing_by rw [Stream.take64_budget _htake]; exact Nat.lt_succ_self _

/-! ### Positions -/

/-- The greatest accepted low half of a product: one less than `n` shifted up to 32 bits. -/
def zone (n : Nat) : Nat :=
  n * 2 ^ (31 - n.log2) - 1

/-- A position below `n`: the high half of the product of `n` and a word whose low half lies in the
zone. -/
def index (n : Nat) (s : Stream σ) : Outcome σ ε Nat :=
  match _htake : s.take32 with
  | none => .dry
  | some (word, rest) =>
    let product := word.toNat * n
    if product % 2 ^ (32 : Nat) ≤ zone n then .done (product / 2 ^ (32 : Nat)) rest
    else index n rest
termination_by s.budget
decreasing_by rw [Stream.take32_budget _htake]; exact Nat.lt_succ_self _

theorem index_lt {n i : Nat} {s rest : Stream σ} (hn : 0 < n)
    (h : (index n s : Outcome σ ε Nat) = .done i rest) : i < n := by
  fun_induction (index n s : Outcome σ ε Nat) with
  | case1 => exact absurd h (by simp)
  | case2 s word mid _ product hzone =>
    simp only [Outcome.done.injEq] at h
    rw [← h.1]
    exact Nat.div_lt_of_lt_mul (Nat.mul_lt_mul_of_pos_right word.toNat_lt hn)
  | case3 s word mid _ product hzone ih => exact ih h

/-- A member of a list, each position equally likely. -/
def element (xs : List α) : Draw σ ε (Option α) :=
  if xs.isEmpty then pure none
  else do
    let i ← index xs.length
    return xs[i]?

/-! ### None of them fails -/

theorem repeatsFrom_ne_failed (p : Float) (count : Nat) (s rest : Stream σ) (e : ε) :
    repeatsFrom p count s ≠ .failed e rest := by
  fun_induction (repeatsFrom p count s : Outcome σ ε Nat) with
  | case1 => simp
  | case2 count s word mid _ _ ih => exact ih
  | case3 => simp

theorem below_ne_failed (limit : Float) (s rest : Stream σ) (e : ε) :
    below limit s ≠ .failed e rest := by
  fun_induction (below limit s : Outcome σ ε Float) with
  | case1 => simp
  | case2 => simp
  | case3 s word mid _ x _ ih => exact ih

theorem index_ne_failed (n : Nat) (s rest : Stream σ) (e : ε) : index n s ≠ .failed e rest := by
  fun_induction (index n s : Outcome σ ε Nat) with
  | case1 => simp
  | case2 => simp
  | case3 s word mid _ product _ ih => exact ih

theorem element_ne_failed (xs : List α) (s rest : Stream σ) (e : ε) :
    element xs s ≠ .failed e rest := by
  unfold element
  split
  · simp [pure_apply]
  · intro h
    rcases bind_eq_failed_iff.1 h with h | ⟨i, mid, _, h⟩
    · exact index_ne_failed _ _ _ _ h
    · simp [pure_apply] at h

theorem element_eq_done {xs : List α} {x : Option α} {s rest : Stream σ}
    (h : (element xs : Draw σ ε (Option α)) s = .done x rest) :
    (xs = [] ∧ x = none) ∨ ∃ a ∈ xs, x = some a := by
  unfold element at h
  split at h
  · rename_i hempty
    simp only [pure_apply, Outcome.done.injEq] at h
    exact Or.inl ⟨by simpa using hempty, h.1.symm⟩
  · rename_i hne
    have hpos : 0 < xs.length := List.length_pos_iff.2 (by simpa using hne)
    obtain ⟨i, mid, hi, h⟩ := bind_eq_done_iff.1 h
    simp only [pure_apply, Outcome.done.injEq] at h
    have hlt := index_lt hpos hi
    refine Or.inr ⟨xs[i], List.getElem_mem hlt, ?_⟩
    rw [← h.1, List.getElem?_eq_getElem hlt]

end ScoreScript.Draw
