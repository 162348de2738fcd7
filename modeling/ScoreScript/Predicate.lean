import ScoreScript.Value.Kind

/-!
# Predicates

A predicate has a name, a list of parameters and the kind of its result.  The state and the action
are handed over as they are; a choice is a literal of a given kind, written into the script.

* `Predicate.signature` — one line that shows all three;
* `Predicate.choices` — the kinds of the literals that a call passes, in order.
-/

namespace ScoreScript

/-- A parameter of a predicate. -/
inductive Param where
  | state
  | action
  | choice (kind : Kind)
  deriving DecidableEq

namespace Param

/-- The spelling of a parameter in a declaration. -/
def text : Param → String
  | state => "state"
  | action => "action"
  | choice kind => kind.typeName

/-- The parameter with exactly this spelling. -/
def ofText? (word : String) : Option Param :=
  if word = "state" then some state
  else if word = "action" then some action
  else (Kind.ofTypeName? word).map choice

/-- The kind of a choice. -/
def choice? : Param → Option Kind
  | choice kind => some kind
  | _ => none

theorem ofText?_text (p : Param) : ofText? p.text = some p := by
  cases p with
  | state => rfl
  | action => rfl
  | choice kind => cases kind <;> decide

end Param

/-- What scripts know about a predicate. -/
structure Predicate where
  name : String
  params : List Param
  returns : Kind
  deriving DecidableEq

namespace Predicate

/-- The kinds of the choices, in parameter order. -/
def choices (p : Predicate) : List Kind :=
  p.params.filterMap Param.choice?

/-- The predicate as one line: name, parameters and kind of the result. -/
def signature (p : Predicate) : String :=
  p.name ++ "(" ++ ", ".intercalate (p.params.map Param.text) ++ ") -> " ++ p.returns.typeName

end Predicate

end ScoreScript
