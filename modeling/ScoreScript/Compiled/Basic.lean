import ScoreScript.Tree.Basic

/-!
# Compiled scripts

A compiled script is a list of blocks, each with a condition and a score adjustment.  A call holds
its predicate, as declared and by position in the catalog, and the literals that it passes.

* `Condition.calls` — the calls in a condition, from left to right.
-/

namespace ScoreScript

/-- A call: the position of the predicate in the catalog, its declaration, and the literals for its
choices. -/
structure Call where
  target : Nat
  predicate : Predicate
  arguments : List Literal
  deriving DecidableEq

/-- The condition of a block.  Every part holds the number of its node. -/
inductive Condition where
  | call (id : NodeId) (call : Call)
  | compare (id : NodeId) (call : Call) (op : Comparator) (value : Literal)
  | and (id : NodeId) (a b : Condition)
  | or (id : NodeId) (a b : Condition)
  | not (id : NodeId) (a : Condition)
  deriving DecidableEq

namespace Condition

/-- The calls in a condition, from left to right. -/
def calls : Condition → List Call
  | call _ c => [c]
  | compare _ c _ _ => [c]
  | and _ a b => a.calls ++ b.calls
  | or _ a b => a.calls ++ b.calls
  | not _ a => a.calls

end Condition

/-- A block adjusts the score by `delta` when its condition holds. -/
structure Block where
  id : NodeId
  condition : Condition
  delta : Int
  deriving DecidableEq

end ScoreScript
