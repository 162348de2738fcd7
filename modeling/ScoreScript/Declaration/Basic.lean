import ScoreScript.Capability
import ScoreScript.Predicate

/-!
# Predicate declarations

A declaration gives a predicate's name, parameters, return type and capability.  The return type
stays the word that was written: it may name no kind, and then no predicate comes of it.

* `Declaration.predicate?` — the declared predicate, when the return type names a kind;
* `Declaration.enabledPredicates` — the predicates of a list of declarations under a set of
  capabilities, in order;
* `ParseError.message` — where a text stops being a list of declarations, and what was expected.
-/

namespace ScoreScript

/-- One declared predicate, as written. -/
structure Declaration where
  name : String
  params : List Param
  returns : String
  capability : Capabilities
  deriving DecidableEq

namespace Declaration

/-- The declared predicate, when the return type names a kind. -/
def predicate? (d : Declaration) : Option Predicate :=
  (Kind.ofTypeName? d.returns).map fun kind => ⟨d.name, d.params, kind⟩

/-- The predicates that the declarations describe under a set of enabled capabilities. -/
def enabledPredicates (enabled : Capabilities) (ds : List Declaration) : List Predicate :=
  (ds.filter fun d => d.capability.intersects enabled).filterMap predicate?

end Declaration

/-! ### Errors -/

/-- What a declaration needs at the place where it goes wrong. -/
inductive Expectation where
  | predicateName | parameterList | parameter | closeParen
  | arrow | returnType | capabilityName | closeBracket
  deriving DecidableEq

/-- The wording of an expectation. -/
def Expectation.text : Expectation → String
  | predicateName => "predicate name"
  | parameterList => "parameter list"
  | parameter => "`state`, `action` or a value type name"
  | closeParen => "`)`"
  | arrow => "`->`"
  | returnType => "return type"
  | capabilityName => "capability name"
  | closeBracket => "`]`"

/-- A text that is no list of declarations: the expectations at the fault, innermost first, and its
line and column, both counted from one. -/
structure ParseError where
  expected : List Expectation
  line : Nat
  column : Nat
  deriving DecidableEq

namespace ParseError

/-- What was expected.  Outside every declaration there is nothing to expect. -/
def detail (e : ParseError) : String :=
  if e.expected = [] then "unexpected input"
  else "expected " ++ ", ".intercalate (e.expected.map Expectation.text)

/-- The full wording of the error. -/
def message (e : ParseError) : String :=
  s!"parse error at line {e.line}, column {e.column}: {e.detail}"

/-- The error at the end of `before`, the part of the text that was read. -/
def after (before : List Char) (expected : List Expectation) : ParseError where
  expected := expected
  line := before.count '\n' + 1
  column := (before.reverse.takeWhile (· != '\n')).length + 1

end ParseError

end ScoreScript
