import ScoreScript.Value.Kind

/-!
# Configuration

What decides how long scripts get, how their conditions nest and which adjustments they make.

* `Config.default` — conditions whose expected number of parts stays below one per part, so that
  they come to an end.
-/

namespace ScoreScript

/-- How many levels and how many nodes a tree may have. -/
structure Limits where
  depth : Nat
  nodes : Nat
  deriving DecidableEq

/-- The relative weights of the forms of conditions. -/
structure ConditionWeights where
  atom : Float
  conjunction : Float
  disjunction : Float
  negation : Float

/-- The configuration of a generator. -/
structure Config where
  gamma : Float
  allowDisjunction : Bool
  comparators : ComparatorSet
  weights : ConditionWeights
  scoreRange : Int
  limits : Limits
  maxAttempts : Nat

/-- Thirty-two levels and five hundred and twelve nodes. -/
def Limits.default : Limits := ⟨32, 512⟩

/-- The usual configuration. -/
def Config.default : Config where
  gamma := 0.7
  allowDisjunction := true
  comparators := .inclusive
  weights := ⟨3.0, 1.0, 1.0, 1.0⟩
  scoreRange := 8
  limits := .default
  maxAttempts := 32

/-- How often generation is tried: at least once. -/
def Config.attempts (c : Config) : Nat :=
  max c.maxAttempts 1

theorem Config.attempts_pos (c : Config) : 0 < c.attempts := by
  unfold Config.attempts
  omega

end ScoreScript
