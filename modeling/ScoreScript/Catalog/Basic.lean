import ScoreScript.Predicate

/-!
# Catalogs

A catalog lists the predicates that scripts may call, each with its implementation: a function of
the state, the action and the literals for the predicate's choices.

* `Catalog.predicates` — the declarations, in order;
* `Catalog.find?` — a declaration by name;
* `Catalog.answers` — what every predicate answers at a state and an action.
-/

namespace ScoreScript

/-- How a predicate is computed from the state, the action and the literals of its choices. -/
abbrev Implementation (S A : Type) := S → A → List Literal → Literal

/-- Predicates with their implementations, in order. -/
structure Catalog (S A : Type) where
  entries : List (Predicate × Implementation S A)

namespace Catalog

variable {S A : Type}

/-- The declarations of a catalog, in order. -/
def predicates (c : Catalog S A) : List Predicate :=
  c.entries.map (·.1)

/-- The number of predicates. -/
def size (c : Catalog S A) : Nat :=
  c.entries.length

/-- The declaration with a name. -/
def find? (c : Catalog S A) (name : String) : Option Predicate :=
  c.predicates.find? (·.name == name)

/-- What the predicate at each position answers.  At a position outside the catalog, to which no
compiled call refers, the answer is always false. -/
def answers (c : Catalog S A) (s : S) (a : A) (index : Nat) (arguments : List Literal) : Literal :=
  match c.entries[index]? with
  | some (_, implementation) => implementation s a arguments
  | none => .bool false

theorem answers_of_entry {c : Catalog S A} {index : Nat} {p : Predicate} {f : Implementation S A}
    (h : c.entries[index]? = some (p, f)) (s : S) (a : A) (arguments : List Literal) :
    c.answers s a index arguments = f s a arguments := by
  simp [answers, h]

end Catalog

end ScoreScript
