import ScoreScript.Grammar.Basic

/-!
# Reachable rules

Which rules may turn up when a root is derived is found breadth first: a queue of rules is worked
off, and the rules that the front one mentions join the queue unless they are known.

* `Grammar.reachable` — the rules in the order in which they are found, the root first;
* `Grammar.validate` — the first of them without alternatives is an error.
-/

namespace ScoreScript

namespace Grammar

/-- The queue after the rules that are not known yet have joined it, each of them once. -/
def enqueue (known queue : List Rule) : List Rule → List Rule
  | [] => queue
  | r :: rest =>
    if r ∈ known ∨ r ∈ queue then enqueue known queue rest
    else enqueue known (queue ++ [r]) rest

/-- Breadth-first search for as many steps as given; `known` holds the rules worked off. -/
def search (g : Grammar) : Nat → (known queue : List Rule) → List Rule
  | _, known, [] => known
  | 0, known, _ => known
  | steps + 1, known, r :: queue =>
    search g steps (known ++ [r]) (enqueue (known ++ [r]) queue (g.mentions r))

/-- One step for the root and one for each mention of a rule anywhere in the table. -/
def searchSteps (g : Grammar) : Nat :=
  1 + (g.table.flatMap fun entry => entry.2.flatMap Production.rules).length

/-- The rules that a derivation from the root may contain, nearest first. -/
def reachable (g : Grammar) (root : Rule) : List Rule :=
  g.search g.searchSteps [] [root]

end Grammar

/-! ### Validation -/

/-- Why a grammar cannot be made. -/
inductive GrammarError where
  | emptyRule (rule : Rule)
  | duplicatePredicate (name : String)
  | invalidScoreRange (range : Int)
  | sampler (rule : Rule) (error : SampleError)

/-- The greatest score range. -/
def maxScoreRange : Int := 8

/-- The wording of an error. -/
def GrammarError.message : GrammarError → String
  | emptyRule rule => s!"rule {rule.text} is reachable but has no productions"
  | duplicatePredicate name => s!"duplicate predicate name '{name}'"
  | invalidScoreRange range => s!"score range must be between 1 and {maxScoreRange}, got {range}"
  | sampler rule error => s!"invalid sampler for rule {rule.text}: {error.message}"

/-- Every rule that a derivation from the root may contain has an alternative. -/
def Grammar.validate (g : Grammar) (root : Rule) : Except GrammarError Unit :=
  match (g.reachable root).find? fun r => (g.alternatives r).isEmpty with
  | some r => .error (.emptyRule r)
  | none => .ok ()

theorem Grammar.validate_eq_ok_iff (g : Grammar) (root : Rule) :
    g.validate root = .ok () ↔ ∀ r ∈ g.reachable root, g.alternatives r ≠ [] := by
  unfold validate
  split
  · rename_i r hr
    have hmem := List.mem_of_find?_eq_some hr
    have hempty := List.find?_some hr
    simp only [List.isEmpty_iff] at hempty
    constructor
    · intro h
      exact absurd h (by simp)
    · intro h
      exact absurd hempty (h r hmem)
  · rename_i hnone
    rw [List.find?_eq_none] at hnone
    simpa using hnone

end ScoreScript
