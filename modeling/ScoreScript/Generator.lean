import ScoreScript.Grammar.Build
import ScoreScript.Grammar.Expansion
import ScoreScript.Random.ChaCha
import ScoreScript.Script.Basic

/-!
# Generators

A generator grows trees from the grammar of a catalog and makes scripts of them.

* `Generator.make` — the generator of a catalog under a configuration;
* `Generator.compileTree` — the script of a given tree within the limits;
* `Generator.generate` — a script from random words: refused trees are replaced by fresh ones, a
  limited number of times;
* `Draw.retry` — a computation that is repeated until it finishes or fails for good.
-/

namespace ScoreScript

/-! ### Trying again -/

/-- The computation, repeated after failures that may go away, `left` times at most.  When the last
one fails too, the error tells the number of attempts. -/
def Draw.retry {σ α : Type} (attempts : Nat) (x : Draw σ GenerateError α) :
    (left : Nat) → Draw σ GenerateError α
  | 0, s =>
    match x s with
    | .dry => .dry
    | .done value rest => .done value rest
    | .failed e rest =>
      if e.isRetryable then .failed (.exhausted attempts e) rest else .failed e rest
  | left + 1, s =>
    match x s with
    | .dry => .dry
    | .done value rest => .done value rest
    | .failed e rest =>
      if e.isRetryable then retry attempts x left rest else .failed e rest

theorem Draw.retry_of_done {σ α : Type} {attempts : Nat} {x : Draw σ GenerateError α}
    {s rest : Stream σ} {value : α} (h : x s = .done value rest) (left : Nat) :
    x.retry attempts left s = .done value rest := by
  cases left <;> simp [Draw.retry, h]

theorem Draw.retry_succ_of_retryable {σ α : Type} {attempts : Nat} {x : Draw σ GenerateError α}
    {s rest : Stream σ} {e : GenerateError} (h : x s = .failed e rest) (he : e.isRetryable = true)
    (left : Nat) : x.retry attempts (left + 1) s = x.retry attempts left rest := by
  simp [Draw.retry, h, he]

/-! ### Generators -/

/-- A catalog with its grammar and the configuration of both. -/
structure Generator (S A : Type) where
  grammar : Grammar
  catalog : Catalog S A
  config : Config

namespace Generator

variable {S A σ : Type}

/-- The generator of a catalog. -/
def make (catalog : Catalog S A) (config : Config) : Except GrammarError (Generator S A) :=
  (Grammar.build catalog.predicates config).map fun grammar => ⟨grammar, catalog, config⟩

/-- The script of a tree whose size has been checked. -/
def assemble (g : Generator S A) (t : Tree) : Except GenerateError (Script S A) :=
  Script.assemble g.catalog g.grammar.scoreRange t

/-- The script of a tree within the limits. -/
def compileTree (g : Generator S A) (t : Tree) : Except GenerateError (Script S A) :=
  match t.checkLimits g.config.limits with
  | .error e => .error (.limit e)
  | .ok () => g.assemble t

/-- One fresh tree and its script. -/
def attempt (g : Generator S A) : Draw σ GenerateError (Script S A) := do
  let t ← g.grammar.expand .start g.config.limits
  Draw.ofExcept (g.assemble t)

/-- A script from random words. -/
def generate (g : Generator S A) : Draw σ GenerateError (Script S A) :=
  g.attempt.retry g.config.attempts (g.config.attempts - 1)

/-- The script of a seed, from at most `budget` words. -/
def generateSeeded (g : Generator S A) (budget : Nat) (seed : UInt64) :
    Outcome ChaCha.State GenerateError (Script S A) :=
  g.generate (.start ChaCha.source (ChaCha.ofSeed seed) budget)

end Generator

end ScoreScript
