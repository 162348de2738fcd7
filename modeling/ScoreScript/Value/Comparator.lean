/-!
# Comparison operators

The six operators of a condition, their spelling, and their meaning on an `Ordering`.

* `Comparator.holds` — which operators hold for each outcome of a comparison;
* `Comparator.isEquality` — the operators that need no order.
-/

namespace ScoreScript

/-- Operator between a predicate's result and a literal. -/
inductive Comparator where
  | equal | notEqual | greater | greaterOrEqual | less | lessOrEqual
  deriving DecidableEq

namespace Comparator

/-- Every operator, equality first. -/
def all : List Comparator :=
  [equal, notEqual, greater, greaterOrEqual, less, lessOrEqual]

/-- The spelling of an operator. -/
def text : Comparator → String
  | equal => "=="
  | notEqual => "!="
  | greater => ">"
  | greaterOrEqual => ">="
  | less => "<"
  | lessOrEqual => "<="

/-- Whether the operator holds between two numbers that compare as `o`. -/
def holds : Comparator → Ordering → Bool
  | equal, o => o == .eq
  | notEqual, o => o != .eq
  | greater, o => o == .gt
  | greaterOrEqual, o => o != .lt
  | less, o => o == .lt
  | lessOrEqual, o => o != .gt

/-- Equality and its negation apply to every class of values that can be compared. -/
def isEquality : Comparator → Bool
  | equal | notEqual => true
  | _ => false

end Comparator

end ScoreScript
