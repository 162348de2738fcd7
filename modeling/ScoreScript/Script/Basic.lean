import ScoreScript.Catalog.Basic
import ScoreScript.Compiled.Compile
import ScoreScript.Evaluation.Score
import ScoreScript.Script.Rendering

/-!
# Scripts

A script is a tree together with its text, its compiled blocks and the catalog that it calls.

* `Script.assemble` — the script of a tree, if the tree has a text and compiles;
* `Script.score`, `Script.trace` — the score of one action, and with it the nodes that scoring met;
* `Script.best`, `Script.decide`, `Script.report` — the choice among candidates;
* `Script.assemble_eq_ok_iff` — what the parts of an assembled script are.
-/

namespace ScoreScript

variable {S A F : Type}

/-- A tree with its text, its blocks and the catalog that its calls refer to. -/
structure Script (S A : Type) where
  tree : Tree
  source : String
  blocks : List Block
  catalog : Catalog S A

/-- What a script decides: one of the candidates, or the fallback when there is none. -/
inductive Decision (A F : Type) where
  | action (index : Nat) (action : A) (score : Int)
  | fallback (value : F)

namespace Script

/-- The script of a tree over a catalog, with adjustments in a range. -/
def assemble (catalog : Catalog S A) (range : Int) (t : Tree) :
    Except GenerateError (Script S A) :=
  match t.render with
  | .error e => .error (.render e)
  | .ok source =>
    match t.compile catalog.predicates range with
    | .error fault => .error (.compile ⟨fault, source⟩)
    | .ok blocks => .ok ⟨t, source, blocks, catalog⟩

theorem assemble_eq_ok_iff {catalog : Catalog S A} {range : Int} {t : Tree} {script : Script S A} :
    assemble catalog range t = .ok script ↔
      script.tree = t ∧ script.catalog = catalog ∧ t.render = .ok script.source ∧
        t.compile catalog.predicates range = .ok script.blocks := by
  obtain ⟨tree, source, blocks, cat⟩ := script
  unfold assemble
  cases ht : t.render with
  | error e => simp
  | ok text =>
    cases hc : t.compile catalog.predicates range with
    | error fault => simp
    | ok bs =>
      simp only [Except.ok.injEq, Script.mk.injEq]
      constructor
      · rintro ⟨rfl, rfl, rfl, rfl⟩
        exact ⟨rfl, rfl, rfl, rfl⟩
      · rintro ⟨rfl, rfl, rfl, rfl⟩
        exact ⟨rfl, rfl, rfl, rfl⟩

/-- The score of an action. -/
def score (script : Script S A) (s : S) (a : A) : Run Int :=
  scoreBlocks (script.catalog.answers s a) script.blocks

/-- The score of an action and the nodes that scoring met. -/
def trace (script : Script S A) (s : S) (a : A) : Run (Int × CallLog) :=
  let run := script.score s a
  { run with result := run.result.map fun value => (value, CallLog.ofVisits run.visited) }

/-- The first candidate with the greatest score. -/
def best (script : Script S A) (s : S) (candidates : List A) : Run (Option (Nat × Int)) :=
  bestOf (script.score s) candidates

/-- The best candidate, or the fallback when there is none. -/
def decide (script : Script S A) (s : S) (candidates : List A) (fallback : S → F) :
    Run (Decision A F) := do
  match ← script.best s candidates with
  | none => pure (.fallback (fallback s))
  | some (index, value) =>
    match candidates[index]? with
    | some action => pure (.action index action value)
    | none => pure (.fallback (fallback s))

/-- The report on candidates. -/
def report (script : Script S A) (s : S) (candidates : List A) : Run Report :=
  reportOf (script.score s) candidates

end Script

end ScoreScript
