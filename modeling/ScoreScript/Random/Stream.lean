/-!
# Streams of random words

A word source turns a state into a word, of 32 or of 64 bits, and the next state.  A stream is a
source on its way: it counts the words of either width that were taken from it, and it has a budget
of words that may still be taken.  Every computation that draws from a stream ends, because each
word lowers the budget.

* `Stream.take32_budget`, `Stream.take64_budget` — a word costs one unit of budget;
* `Draw` — computations that draw: they finish with a value, fail with an error, or find the
  budget used up, and in the first two cases they leave the stream at a definite position.
-/

namespace ScoreScript

/-- A source of random words over states of type `σ`. -/
structure WordSource (σ : Type) where
  next32 : σ → UInt32 × σ
  next64 : σ → UInt64 × σ

/-- A source that goes on from the states of either of two sources. -/
def WordSource.sum {σ τ : Type} (a : WordSource σ) (b : WordSource τ) : WordSource (σ ⊕ τ) where
  next32
    | .inl s => let (word, s) := a.next32 s; (word, .inl s)
    | .inr t => let (word, t) := b.next32 t; (word, .inr t)
  next64
    | .inl s => let (word, s) := a.next64 s; (word, .inl s)
    | .inr t => let (word, t) := b.next64 t; (word, .inr t)

/-- A source in a state, with the words left to take and the words taken so far. -/
structure Stream (σ : Type) where
  source : WordSource σ
  state : σ
  budget : Nat
  drawn32 : Nat
  drawn64 : Nat

namespace Stream

variable {σ : Type}

/-- A stream from which nothing has been taken. -/
def start (source : WordSource σ) (state : σ) (budget : Nat) : Stream σ :=
  ⟨source, state, budget, 0, 0⟩

/-- The next word of 32 bits. -/
def take32 (s : Stream σ) : Option (UInt32 × Stream σ) :=
  match s.budget with
  | 0 => none
  | left + 1 =>
    let (word, state) := s.source.next32 s.state
    some (word, { s with state := state, budget := left, drawn32 := s.drawn32 + 1 })

/-- The next word of 64 bits. -/
def take64 (s : Stream σ) : Option (UInt64 × Stream σ) :=
  match s.budget with
  | 0 => none
  | left + 1 =>
    let (word, state) := s.source.next64 s.state
    some (word, { s with state := state, budget := left, drawn64 := s.drawn64 + 1 })

theorem take32_budget {s rest : Stream σ} {word : UInt32} (h : s.take32 = some (word, rest)) :
    s.budget = rest.budget + 1 := by
  unfold take32 at h
  split at h
  · exact absurd h (by simp)
  · rename_i left hleft
    simp only [Option.some.injEq, Prod.mk.injEq] at h
    rw [← h.2, hleft]

theorem take64_budget {s rest : Stream σ} {word : UInt64} (h : s.take64 = some (word, rest)) :
    s.budget = rest.budget + 1 := by
  unfold take64 at h
  split at h
  · exact absurd h (by simp)
  · rename_i left hleft
    simp only [Option.some.injEq, Prod.mk.injEq] at h
    rw [← h.2, hleft]

end Stream

/-! ### Computations that draw -/

/-- What a computation that draws comes to. -/
inductive Outcome (σ ε α : Type) where
  | dry
  | failed (error : ε) (rest : Stream σ)
  | done (value : α) (rest : Stream σ)

/-- A computation that draws words, may fail with an `ε`, and finishes with an `α`. -/
def Draw (σ ε α : Type) : Type :=
  Stream σ → Outcome σ ε α

namespace Draw

variable {σ ε ε' α β : Type}

/-- The computation that draws nothing. -/
def succeed (value : α) : Draw σ ε α := fun s => .done value s

/-- The computation that fails without drawing. -/
def fail (error : ε) : Draw σ ε α := fun s => .failed error s

/-- One computation after another, on the stream that the first leaves. -/
def andThen (x : Draw σ ε α) (f : α → Draw σ ε β) : Draw σ ε β := fun s =>
  match x s with
  | .dry => .dry
  | .failed error rest => .failed error rest
  | .done value rest => f value rest

instance : Monad (Draw σ ε) where
  pure := succeed
  bind := andThen

/-- The same computation with its errors put into a wider context. -/
def mapError (f : ε → ε') (x : Draw σ ε α) : Draw σ ε' α := fun s =>
  match x s with
  | .dry => .dry
  | .failed error rest => .failed (f error) rest
  | .done value rest => .done value rest

/-- The computation that finishes or fails as a given result does. -/
def ofExcept (result : Except ε α) : Draw σ ε α :=
  match result with
  | .ok value => succeed value
  | .error error => fail error

theorem pure_apply (value : α) (s : Stream σ) :
    (pure value : Draw σ ε α) s = .done value s := rfl

theorem fail_apply (error : ε) (s : Stream σ) :
    (fail error : Draw σ ε α) s = .failed error s := rfl

theorem bind_eq_done_iff {x : Draw σ ε α} {f : α → Draw σ ε β} {s rest : Stream σ} {b : β} :
    (x >>= f) s = .done b rest ↔ ∃ a mid, x s = .done a mid ∧ f a mid = .done b rest := by
  show andThen x f s = _ ↔ _
  unfold andThen
  cases x s with
  | dry => simp
  | failed error mid => simp
  | done a mid => grind

theorem bind_eq_failed_iff {x : Draw σ ε α} {f : α → Draw σ ε β} {s rest : Stream σ} {e : ε} :
    (x >>= f) s = .failed e rest ↔
      x s = .failed e rest ∨ ∃ a mid, x s = .done a mid ∧ f a mid = .failed e rest := by
  show andThen x f s = _ ↔ _
  unfold andThen
  cases x s with
  | dry => simp
  | failed error mid => simp
  | done a mid => grind

theorem mapError_eq_done_iff {g : ε → ε'} {x : Draw σ ε α} {s rest : Stream σ} {a : α} :
    x.mapError g s = .done a rest ↔ x s = .done a rest := by
  unfold mapError
  cases x s <;> simp

theorem mapError_eq_failed_iff {g : ε → ε'} {x : Draw σ ε α} {s rest : Stream σ} {e : ε'} :
    x.mapError g s = .failed e rest ↔ ∃ e', x s = .failed e' rest ∧ g e' = e := by
  unfold mapError
  cases x s with
  | dry => simp
  | failed error mid => simp only [Outcome.failed.injEq]; grind
  | done a mid => simp

end Draw

end ScoreScript
