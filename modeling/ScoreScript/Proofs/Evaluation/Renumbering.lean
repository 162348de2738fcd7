import ScoreScript.Proofs.Evaluation.Soundness
import ScoreScript.Proofs.Script.Renumbering

/-!
# Runs with other numbers

Blocks with other numbers meet nodes with other numbers, but make the same calls and come to the
same score.  An error depends on the numbers only if it reports an overflow, which accepted scripts
do not come to.

* `Run.mapIds`, `scoreBlocks_mapIds` — a run of blocks with other numbers;
* `Run.result_eq_of_mapIds_eq` — results without overflow;
* `Generator.Made.score_congr` — scores of scripts whose blocks agree but for their numbers.
-/

namespace ScoreScript

/-! ### Runs -/

section Runs

variable {α β : Type} (f : NodeId → NodeId)

/-- The error with every number replaced by its image. -/
def EvalError.mapIds : EvalError → EvalError
  | scoreOverflow id => scoreOverflow (f id)
  | error => error

/-- The run with every number replaced by its image. -/
def Run.mapIds (run : Run α) : Run α :=
  ⟨run.visited.map f, run.calls, run.result.mapError (EvalError.mapIds f)⟩

theorem Run.calls_mapIds (run : Run α) : (run.mapIds f).calls = run.calls := rfl

theorem Run.mapIds_bind (x : Run α) (next : α → Run β) :
    (x >>= next).mapIds f = x.mapIds f >>= fun value => (next value).mapIds f := by
  obtain ⟨visited, calls, result⟩ := x
  cases result with
  | error e => rfl
  | ok value =>
    show Run.mk ((visited ++ (next value).visited).map f) _ _ = _
    rw [List.map_append]
    rfl

theorem Run.mapIds_pure (value : α) : (pure value : Run α).mapIds f = pure value := rfl

theorem Run.mapIds_visit (id : NodeId) : (Run.visit id).mapIds f = Run.visit (f id) := rfl

theorem Run.mapIds_ite (holds : Bool) (x y : Run α) :
    (if holds then x else y).mapIds f = if holds then x.mapIds f else y.mapIds f :=
  apply_ite (Run.mapIds f) _ _ _

theorem Call.run_mapIds (answers : Answers) (c : Call) :
    (c.run answers).mapIds f = c.run answers := by
  rw [Call.run]
  cases c.predicate.returns.contains (answers c.target c.arguments) <;> rfl

theorem asTruth_mapIds (name : String) (value : Literal) :
    (asTruth name value).mapIds f = asTruth name value := by
  unfold asTruth
  cases value.bool? <;> rfl

theorem asComparison_mapIds (name : String) (actual : Literal) (op : Comparator) (value : Literal) :
    (asComparison name actual op value).mapIds f = asComparison name actual op value := by
  unfold asComparison
  cases Literal.compare op actual value <;> rfl

theorem adjust_mapIds (id : NodeId) (total delta : Int) :
    adjust (f id) total delta = (adjust id total delta).mapIds f := by
  unfold adjust
  cases isScore (total + delta) <;> rfl

theorem Condition.run_mapIds (answers : Answers) (c : Condition) :
    (c.mapIds f).run answers = (c.run answers).mapIds f := by
  induction c with
  | call id c =>
    simp only [mapIds, run, Run.mapIds_bind, Run.mapIds_visit, Call.run_mapIds, asTruth_mapIds]
  | compare id c op value =>
    simp only [mapIds, run, Run.mapIds_bind, Run.mapIds_visit, Call.run_mapIds, asComparison_mapIds]
  | and id a b iha ihb =>
    simp only [mapIds, run, Run.mapIds_bind, Run.mapIds_visit, iha, ihb, Run.mapIds_ite,
      Run.mapIds_pure]
  | or id a b iha ihb =>
    simp only [mapIds, run, Run.mapIds_bind, Run.mapIds_visit, iha, ihb, Run.mapIds_ite,
      Run.mapIds_pure]
  | not id a ih =>
    simp only [mapIds, run, Run.mapIds_bind, Run.mapIds_visit, ih, Run.mapIds_pure]

theorem scoreFrom_mapIds (answers : Answers) (total : Int) (blocks : List Block) :
    scoreFrom answers total (blocks.map (Block.mapIds f)) =
      (scoreFrom answers total blocks).mapIds f := by
  induction blocks generalizing total with
  | nil => rfl
  | cons b rest ih =>
    rw [List.map_cons, scoreFrom, scoreFrom]
    simp only [Block.mapIds, Run.mapIds_bind, Run.mapIds_visit, Condition.run_mapIds, ih,
      Run.mapIds_ite, adjust_mapIds, Run.mapIds_pure]

/-- Blocks with other numbers meet the nodes with the other numbers, and apart from that run as
before. -/
theorem scoreBlocks_mapIds (answers : Answers) (blocks : List Block) :
    scoreBlocks answers (blocks.map (Block.mapIds f)) = (scoreBlocks answers blocks).mapIds f :=
  scoreFrom_mapIds f answers 0 blocks

/-- Without overflow, which names a block, a result does not depend on the numbers. -/
theorem Run.result_eq_of_mapIds_eq {f : NodeId → NodeId} {x y : Run α}
    (h : x.mapIds f = y.mapIds f) (hx : ∀ id, x.result ≠ .error (.scoreOverflow id)) :
    x.result = y.result := by
  have hresult : x.result.mapError (EvalError.mapIds f) = y.result.mapError (EvalError.mapIds f) :=
    congrArg Run.result h
  cases hxr : x.result with
  | ok value =>
    cases hyr : y.result with
    | ok value' =>
      rw [hxr, hyr] at hresult
      exact hresult
    | error e =>
      rw [hxr, hyr] at hresult
      cases hresult
  | error e =>
    cases hyr : y.result with
    | ok value' =>
      rw [hxr, hyr] at hresult
      cases hresult
    | error e' =>
      rw [hxr, hyr] at hresult
      have herror : e.mapIds f = e'.mapIds f := Except.error.inj hresult
      cases e with
      | scoreOverflow id => exact absurd hxr (hx id)
      | _ =>
        cases e' <;> cases herror
        rfl

end Runs

/-! ### Scripts -/

/-- A tree that differs from the tree of a script in its numbers is a script too, with the same text
and with blocks that differ in their numbers. -/
theorem Script.assemble_of_unnumbered_eq {S A : Type} {catalog : Catalog S A} {range : Int}
    {t u : Tree} {script : Script S A} (h : assemble catalog range t = .ok script)
    (hsame : u.unnumbered = t.unnumbered) :
    ∃ script', assemble catalog range u = .ok script' ∧ script'.source = script.source ∧
      script'.blocks.map Block.unnumbered = script.blocks.map Block.unnumbered := by
  obtain ⟨_, _, hrender, hcompile⟩ := assemble_eq_ok_iff.1 h
  have hsource : u.render = .ok script.source := by
    rw [← Tree.render_unnumbered, hsame, Tree.render_unnumbered, hrender]
  have hblocks : (u.compile catalog.predicates range).map (List.map Block.unnumbered) =
      .ok (script.blocks.map Block.unnumbered) := by
    rw [← Tree.compile_unnumbered, hsame, Tree.compile_unnumbered, hcompile]
    rfl
  cases hu : u.compile catalog.predicates range with
  | error fault =>
    rw [hu] at hblocks
    cases hblocks
  | ok blocks =>
    rw [hu] at hblocks
    exact ⟨⟨u, script.source, blocks, catalog⟩, assemble_eq_ok_iff.2 ⟨rfl, rfl, hsource, hu⟩, rfl,
      Except.ok.inj hblocks⟩

/-- **Numbers carry no meaning.**  Accepted scripts over one catalog whose blocks agree but for
their numbers make the same calls and come to the same score or error. -/
theorem Generator.Made.score_congr {S A : Type} {catalog : Catalog S A} {config config' : Config}
    {g g' : Generator S A} (hmade : Made catalog config g) (hmade' : Made catalog config' g')
    {script script' : Script S A} (h : g.Accepts script) (h' : g'.Accepts script')
    (hblocks : script.blocks.map Block.unnumbered = script'.blocks.map Block.unnumbered)
    (hsmall : script.blocks.length * 8 < 2 ^ (63 : Nat)) (s : S) (a : A) :
    (script.score s a).calls = (script'.score s a).calls ∧
      (script.score s a).result = (script'.score s a).result := by
  have hsame : (script.score s a).mapIds (fun _ => 0) = (script'.score s a).mapIds fun _ => 0 := by
    rw [Script.score, Script.score, ← scoreBlocks_mapIds, ← scoreBlocks_mapIds, h.catalog_eq,
      h'.catalog_eq, hmade.catalog_eq, hmade'.catalog_eq]
    exact congrArg (scoreBlocks (catalog.answers s a)) hblocks
  have hcalls : (script.score s a).calls = (script'.score s a).calls := by
    rw [← Run.calls_mapIds fun _ => 0, hsame, Run.calls_mapIds]
  have hsound := hmade.score_runs_soundly h hsmall s a
  exact ⟨hcalls, Run.result_eq_of_mapIds_eq hsame hsound.ne_overflow⟩

end ScoreScript
