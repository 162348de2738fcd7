import ScoreScript.Numeric.Rounding
import ScoreScript.Value.Comparator
import ScoreScript.Value.Multiplier
import ScoreScript.Value.Vocabulary

/-!
# Literals

A literal is what a predicate returns and what a script compares it with.

* `Literal.compare` — integers and multipliers are numbers and compare as numbers; all other
  literals only compare with their own sort, and only for equality;
* `Literal.quarters?` — the number that a literal denotes, counted in quarters.  An integer is
  taken with the 53 significant bits of a binary64 number.
-/

namespace ScoreScript

/-- A value of the battle vocabulary.  The absent weather or status stands for a clear field or a
healthy combatant. -/
inductive Literal where
  | bool (value : Bool)
  | int (value : Int64)
  | multiplier (value : Multiplier)
  | element (value : Element)
  | weather (value : Option Weather)
  | status (value : Option Status)
  | stat (value : Stat)
  deriving DecidableEq

namespace Literal

/-- The spelling of a literal in a script. -/
def text : Literal → String
  | bool true => "true"
  | bool false => "false"
  | int value => value.toInt.repr
  | multiplier value => value.text
  | element value => value.name
  | weather (some value) => value.name
  | status (some value) => value.name
  | weather none => "none"
  | status none => "none"
  | stat value => "'" ++ value.name ++ "'"

/-- Four times the number that a literal denotes as a binary64 number. -/
def quarters? : Literal → Option Int
  | int value => some (4 * Rounding.nearestInt 53 value.toInt)
  | multiplier value => some value.quarters
  | _ => none

/-- The truth value that a literal holds. -/
def bool? : Literal → Option Bool
  | bool value => some value
  | _ => none

/-- Two literals are of one sort when they were built in the same way. -/
def sameSort : Literal → Literal → Bool
  | bool _, bool _ => true
  | int _, int _ => true
  | multiplier _, multiplier _ => true
  | element _, element _ => true
  | weather _, weather _ => true
  | status _, status _ => true
  | stat _, stat _ => true
  | _, _ => false

/-- Comparison for equality alone; the ordering operators do not apply. -/
def compareEquality (op : Comparator) (a b : Literal) : Option Bool :=
  match op with
  | .equal => some (a == b)
  | .notEqual => some (a != b)
  | _ => none

/-- Whether the operator holds between two literals, when it applies to them. -/
def compare (op : Comparator) (a b : Literal) : Option Bool :=
  match a.quarters?, b.quarters? with
  | some m, some n => some (op.holds (Ord.compare m n))
  | _, _ => if a.sameSort b then compareEquality op a b else none

end Literal

end ScoreScript
