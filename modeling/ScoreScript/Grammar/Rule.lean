import ScoreScript.Predicate

/-!
# Rules, terminals and symbols

A script is derived from rules.  A rule stands for a part of a script; a terminal stands for
itself.  Rules for literals carry a kind and rules for calls carry the position of a predicate.

* `Rule.text`, `Terminal.text`, `Symbol.text` — how they are shown;
* `Rule.precedes` — the order in which rules are listed;
* `Rule.precedes_total`, `Rule.precedes_trans`, `Rule.precedes_antisymm` — it is an order, in which
  no two rules have the same place.
-/

namespace ScoreScript

/-- A part of a script that is still to be derived. -/
inductive Rule where
  | start
  | block
  | body
  | condition
  | conjunction
  | disjunction
  | negation
  | atom
  | adjustment
  | amount
  | call
  | numericComparator
  | enumComparator
  | literal (kind : Kind)
  | predicate (index : Nat)
  deriving DecidableEq

namespace Rule

/-- How a rule is shown. -/
def text : Rule → String
  | start => "START"
  | block => "IF_BLOCK"
  | body => "IF_BODY"
  | condition => "BOOL_EXP"
  | conjunction => "AND_EXP"
  | disjunction => "OR_EXP"
  | negation => "NOT_EXP"
  | atom => "BOOL"
  | adjustment => "RETURN"
  | amount => "SCORE_AMOUNT"
  | call => "LIB_CALL"
  | numericComparator => "NUM_CMP"
  | enumComparator => "ENUM_CMP"
  | literal kind => "LITERAL<" ++ kind.typeName ++ ">"
  | predicate index => "PREDICATE_" ++ index.repr

/-- Place of a rule among the forms of rules. -/
def rank : Rule → Nat
  | start => 0 | block => 1 | body => 2 | condition => 3 | conjunction => 4 | disjunction => 5
  | negation => 6 | atom => 7 | adjustment => 8 | amount => 9 | call => 10
  | numericComparator => 11 | enumComparator => 12 | literal _ => 13 | predicate _ => 14

/-- Place of a rule among the rules of its form. -/
def subrank : Rule → Nat
  | literal kind => kind.rank
  | predicate index => index
  | _ => 0

/-- The rules without an index. -/
def plain : List Rule :=
  [start, block, body, condition, conjunction, disjunction, negation, atom, adjustment, amount,
    call, numericComparator, enumComparator]

/-- By form first, then by place within the form. -/
def precedes (a b : Rule) : Bool :=
  a.rank < b.rank || (a.rank == b.rank && a.subrank ≤ b.subrank)

theorem eq_of_ranks {a b : Rule} (h : a.rank = b.rank) (h' : a.subrank = b.subrank) : a = b := by
  cases a <;> cases b <;> simp_all [rank, subrank]
  exact Kind.rank_injective h'

theorem precedes_antisymm {a b : Rule} (hab : a.precedes b = true) (hba : b.precedes a = true) :
    a = b := by
  simp only [precedes, Bool.or_eq_true, Bool.and_eq_true, decide_eq_true_eq, beq_iff_eq] at hab hba
  exact eq_of_ranks (by omega) (by omega)

theorem precedes_total (a b : Rule) : (a.precedes b || b.precedes a) = true := by
  simp only [precedes, Bool.or_eq_true, Bool.and_eq_true, decide_eq_true_eq, beq_iff_eq]
  omega

theorem precedes_trans (a b c : Rule) (hab : a.precedes b = true) (hbc : b.precedes c = true) :
    a.precedes c = true := by
  simp only [precedes, Bool.or_eq_true, Bool.and_eq_true, decide_eq_true_eq, beq_iff_eq] at *
  omega

/-- The rule for the operators between a result of a class and a literal. -/
def comparator? : KindClass → Option Rule
  | .boolean => none
  | .numeric => some numericComparator
  | .enumerated => some enumComparator

end Rule

/-! ### Terminals -/

/-- A part of a script that stands for itself. -/
inductive Terminal where
  | name (text : String)
  | state
  | action
  | op (comparator : Comparator)
  | value (literal : Literal)
  deriving DecidableEq

/-- How a terminal is shown. -/
def Terminal.text : Terminal → String
  | name text => text
  | state => "state"
  | action => "action"
  | op comparator => comparator.text
  | value literal => literal.text

/-! ### Symbols -/

/-- What a production consists of and what a node of a tree is labelled with. -/
inductive Symbol where
  | rule (rule : Rule)
  | terminal (terminal : Terminal)
  deriving DecidableEq

namespace Symbol

/-- How a symbol is shown. -/
def text : Symbol → String
  | rule r => r.text
  | terminal t => t.text

/-- The rule that a symbol is. -/
def rule? : Symbol → Option Rule
  | rule r => some r
  | terminal _ => none

/-- The terminal that a symbol is. -/
def terminal? : Symbol → Option Terminal
  | rule _ => none
  | terminal t => some t

end Symbol

end ScoreScript
