import ScoreScript.Proofs.Cache.Acceptance
import ScoreScript.Proofs.Evaluation.CallLogs

/-!
# Scripts with other numbers

Replacing the numbers in a tree, even by numbers that are no longer distinct, changes nothing but the
numbers: the tree is refused with the same error, or it becomes a script with the same text and the same
bytes, whose runs make the same calls and come to the same results.  The nodes that they meet are those
of the old numbers, replaced.

* `Tree.checkLimits_mapIds`, `Listing.ofTree_mapIds` — limits and listings do not look at numbers;
* `Script.mapIds`, `Generator.compileTree_mapIds` — compiling commutes with replacing numbers;
* `Run.Renumbers`, `Run.Renumbers.bind` — runs that differ in numbers only;
* `bestFrom_renumbers`, `scoresOf_renumbers` — candidate by candidate;
* `Generator.numbers_carry_no_meaning` — all of it for every tree and every replacement.
-/

namespace ScoreScript

variable {S A F α β : Type} (f : NodeId → NodeId)

/-! ### Traversals -/

namespace Tree

theorem children_mapIds (t : Tree) : (t.mapIds f).children = t.children.map (mapIds f) := by
  obtain ⟨id, label, children⟩ := t
  rw [mapIds_node, Tree.children, Tree.children]

/-- A tree with its level, renumbered. -/
def mapIdsLevelled (pair : Tree × Nat) : Tree × Nat :=
  (pair.1.mapIds f, pair.2)

theorem atLevel_map (level : Nat) (ts : List Tree) :
    atLevel level (ts.map (mapIds f)) = (atLevel level ts).map (mapIdsLevelled f) := by
  simp [atLevel, mapIdsLevelled, Function.comp_def]

theorem checkFrom_map (limits : Limits) (seen : Nat) (pending : List (Tree × Nat)) :
    checkFrom limits seen (pending.map (mapIdsLevelled f)) = checkFrom limits seen pending := by
  fun_induction checkFrom limits seen pending with
  | case1 seen => rw [List.map_nil, checkFrom]
  | case2 seen t level rest hdeep =>
    rw [List.map_cons, mapIdsLevelled, checkFrom, if_pos hdeep]
  | case3 seen t level rest hdeep hmany =>
    rw [List.map_cons, mapIdsLevelled, checkFrom, if_neg hdeep, if_pos hmany]
  | case4 seen t level rest hdeep hmany ih =>
    rw [List.map_cons, mapIdsLevelled, checkFrom, if_neg hdeep, if_neg hmany, children_mapIds,
      ← List.map_reverse, atLevel_map, ← List.map_append, ih]

/-- The same limit is exceeded, or none. -/
theorem checkLimits_mapIds (limits : Limits) (t : Tree) :
    (t.mapIds f).checkLimits limits = t.checkLimits limits :=
  checkFrom_map f limits 0 [(t, 1)]

theorem preorderAll_map (ts : List Tree) :
    preorderAll (ts.map (mapIds f)) = (preorderAll ts).map (mapIds f) := by
  fun_induction preorderAll ts with
  | case1 => rw [List.map_nil, preorderAll]
  | case2 t rest ih =>
    rw [List.map_cons, preorderAll, children_mapIds, ← List.map_append, ih, List.map_cons]

theorem preorder_mapIds (t : Tree) : (t.mapIds f).preorder = t.preorder.map (mapIds f) :=
  preorderAll_map f [t]

theorem size_mapIds (t : Tree) : (t.mapIds f).size = t.size := by
  rw [size, preorder_mapIds, List.length_map, size]

end Tree

theorem ListingEntry.ofTree_mapIds (t : Tree) : ofTree (t.mapIds f) = ofTree t := by
  rw [ofTree, Tree.label_mapIds, Tree.children_mapIds, List.length_map, ofTree]

theorem Listing.ofTree_mapIds (t : Tree) : ofTree (t.mapIds f) = ofTree t := by
  rw [ofTree, Tree.preorder_mapIds, List.map_map, ofTree]
  exact List.map_congr_left fun u _ => ListingEntry.ofTree_mapIds f u

theorem Payload.ofTree_mapIds (ps : List Predicate) (t : Tree) :
    ofTree ps (t.mapIds f) = ofTree ps t := by
  rw [ofTree, Tree.size_mapIds, Listing.ofTree_mapIds, ofTree]

/-! ### Scripts -/

namespace Script

/-- The script with every number replaced by its image. -/
def mapIds (script : Script S A) : Script S A :=
  { script with
    tree := script.tree.mapIds f
    blocks := script.blocks.map (Block.mapIds f) }

theorem assemble_mapIds (catalog : Catalog S A) (range : Int) (t : Tree) :
    assemble catalog range (t.mapIds f) = (assemble catalog range t).map (mapIds f) := by
  rw [assemble, Tree.render_mapIds, Tree.compile_mapIds, assemble]
  cases t.render with
  | error e => rfl
  | ok source => cases t.compile catalog.predicates range <;> rfl

/-- The numbers are not stored. -/
theorem toBytes_mapIds (script : Script S A) : (script.mapIds f).toBytes = script.toBytes := by
  rw [toBytes, mapIds, Payload.ofTree_mapIds, toBytes]

theorem score_mapIds (script : Script S A) (s : S) (a : A) :
    (script.mapIds f).score s a = (script.score s a).mapIds f :=
  scoreBlocks_mapIds f _ _

end Script

/-- Compiling a tree with other numbers gives the script with other numbers, or the same error. -/
theorem Generator.compileTree_mapIds (g : Generator S A) (t : Tree) :
    g.compileTree (t.mapIds f) = (g.compileTree t).map (Script.mapIds f) := by
  rw [compileTree, Tree.checkLimits_mapIds, compileTree]
  cases t.checkLimits g.config.limits with
  | error e => rfl
  | ok _ => exact Script.assemble_mapIds f g.catalog g.grammar.scoreRange t

/-! ### Runs -/

/-- The second run meets the nodes of the first with other numbers, and apart from that it is the
same run. -/
structure Run.Renumbers (x y : Run α) : Prop where
  visited_eq : y.visited = x.visited.map f
  calls_eq : y.calls = x.calls
  result_eq : y.result = x.result

namespace Run.Renumbers

variable {f}

theorem pure (value : α) : Run.Renumbers f (pure value : Run α) (pure value) :=
  ⟨rfl, rfl, rfl⟩

theorem bind {x y : Run α} {next next' : α → Run β} (h : x.Renumbers f y)
    (hnext : ∀ value, (next value).Renumbers f (next' value)) :
    (x >>= next).Renumbers f (y >>= next') := by
  obtain ⟨hvisited, hcalls, hresult⟩ := h
  show (x.andThen next).Renumbers f (y.andThen next')
  cases hx : x.result with
  | error e =>
    rw [andThen_error hx, andThen_error (hresult.trans hx)]
    exact ⟨hvisited, hcalls, rfl⟩
  | ok value =>
    rw [andThen_ok hx, andThen_ok (hresult.trans hx)]
    obtain ⟨hvisited', hcalls', hresult'⟩ := hnext value
    refine ⟨?_, ?_, hresult'⟩
    · show y.visited ++ (next' value).visited = (x.visited ++ (next value).visited).map f
      rw [hvisited, hvisited', List.map_append]
    · show y.calls ++ (next' value).calls = x.calls ++ (next value).calls
      rw [hcalls, hcalls']

/-- A run with other numbers, unless it reports an overflow, which names a block. -/
theorem of_mapIds {x y : Run α} (h : y = x.mapIds f)
    (hx : ∀ id, x.result ≠ .error (.scoreOverflow id)) : x.Renumbers f y := by
  subst h
  refine ⟨rfl, rfl, ?_⟩
  cases hresult : x.result with
  | ok value =>
    show x.result.mapError _ = _
    rw [hresult]
    rfl
  | error e =>
    show x.result.mapError _ = _
    rw [hresult]
    cases e with
    | scoreOverflow id => exact absurd hresult (hx id)
    | _ => rfl

end Run.Renumbers

section Candidates

variable {f} {score score' : A → Run Int} (h : ∀ a, (score a).Renumbers f (score' a))

include h

theorem bestFrom_renumbers (best : Option (Nat × Int)) (index : Nat) (candidates : List A) :
    (bestFrom score best index candidates).Renumbers f (bestFrom score' best index candidates) := by
  induction candidates generalizing best index with
  | nil => exact .pure best
  | cons a rest ih => exact (h a).bind fun value => ih (better best index value) (index + 1)

theorem scoresOf_renumbers (candidates : List A) :
    (scoresOf score candidates).Renumbers f (scoresOf score' candidates) := by
  induction candidates with
  | nil => exact .pure []
  | cons a rest ih => exact (h a).bind fun value => ih.bind fun values => .pure (value :: values)

end Candidates

/-- The report in whose log every node is replaced by its image. -/
def Report.mapIds (report : Report) : Report :=
  { report with log := report.log.image f }

theorem reportOf_renumbers {f : NodeId → NodeId} {score score' : A → Run Int}
    (h : ∀ a, (score a).Renumbers f (score' a)) (candidates : List A) :
    (reportOf score' candidates).calls = (reportOf score candidates).calls ∧
      (reportOf score' candidates).result =
        (reportOf score candidates).result.map (Report.mapIds f) := by
  obtain ⟨hvisited, hcalls, hresult⟩ := scoresOf_renumbers h candidates
  refine ⟨hcalls, ?_⟩
  show (scoresOf score' candidates).result.map _ = ((scoresOf score candidates).result.map _).map _
  rw [hvisited, hresult, CallLog.ofVisits_map]
  cases (scoresOf score candidates).result <;> rfl

/-! ### Runs of scripts -/

namespace Script

variable {f} {script script' : Script S A} {s : S}

theorem trace_renumbers {a : A} (h : (script.score s a).Renumbers f (script'.score s a)) :
    (script'.trace s a).calls = (script.trace s a).calls ∧
      (script'.trace s a).result =
        (script.trace s a).result.map (Prod.map id (CallLog.image f)) := by
  obtain ⟨hvisited, hcalls, hresult⟩ := h
  refine ⟨hcalls, ?_⟩
  show (script'.score s a).result.map _ = ((script.score s a).result.map _).map _
  rw [hvisited, hresult, CallLog.ofVisits_map]
  cases (script.score s a).result <;> rfl

theorem decide_renumbers (h : ∀ a, (script.score s a).Renumbers f (script'.score s a))
    (candidates : List A) (fallback : S → F) :
    (script.decide s candidates fallback).Renumbers f (script'.decide s candidates fallback) := by
  refine (bestFrom_renumbers h none 0 candidates).bind fun choice => ?_
  cases choice with
  | none => exact .pure _
  | some pair => cases hcandidate : candidates[pair.1]? <;> simp only [hcandidate] <;> exact .pure _

end Script

namespace Generator

/-- **Numbers carry no meaning.**  Let the numbers in a tree be replaced in any way.  Both trees are
refused with the same error, or both become scripts, with the same text and the same bytes.  Scoring
an action, choosing the best candidate and deciding make the same calls and come to the same result,
and they meet the same nodes under their new numbers.  So the logs of traces and reports are the images
of the old logs, and nothing else in them changes. -/
theorem numbers_carry_no_meaning {catalog : Catalog S A} {config : Config} {g : Generator S A}
    (hmake : make catalog config = .ok g) (t : Tree) (f : NodeId → NodeId) :
    (∃ e, g.compileTree t = .error e ∧ g.compileTree (t.mapIds f) = .error e) ∨
    ∃ script script', g.compileTree t = .ok script ∧ g.compileTree (t.mapIds f) = .ok script' ∧
      script'.source = script.source ∧ script'.toBytes = script.toBytes ∧
      script'.blocks.length = script.blocks.length ∧
      (script.blocks.length * 8 < 2 ^ (63 : Nat) → ∀ s : S,
        (∀ a : A, (script.score s a).Renumbers f (script'.score s a) ∧
          (script'.trace s a).calls = (script.trace s a).calls ∧
          (script'.trace s a).result =
            (script.trace s a).result.map (Prod.map id (CallLog.image f))) ∧
        ∀ candidates : List A,
          (script.best s candidates).Renumbers f (script'.best s candidates) ∧
          (∀ (F : Type) (fallback : S → F), (script.decide s candidates fallback).Renumbers f
            (script'.decide s candidates fallback)) ∧
          (script'.report s candidates).calls = (script.report s candidates).calls ∧
          (script'.report s candidates).result =
            (script.report s candidates).result.map (Report.mapIds f)) := by
  have hcompile := compileTree_mapIds f g t
  cases hscript : g.compileTree t with
  | error e =>
    rw [hscript] at hcompile
    exact Or.inl ⟨e, rfl, hcompile⟩
  | ok script =>
    rw [hscript] at hcompile
    refine Or.inr ⟨script, script.mapIds f, rfl, hcompile, rfl, script.toBytes_mapIds f,
      List.length_map _, fun hsmall s => ?_⟩
    have hscore : ∀ a, (script.score s a).Renumbers f ((script.mapIds f).score s a) := by
      intro a
      have hsound := (make_eq_ok hmake).score_runs_soundly (.compiled hscript) hsmall s a
      exact .of_mapIds (script.score_mapIds f s a) hsound.ne_overflow
    refine ⟨fun a => ⟨hscore a, Script.trace_renumbers (hscore a)⟩, fun candidates => ?_⟩
    exact ⟨bestFrom_renumbers hscore none 0 candidates,
      fun _ fallback => Script.decide_renumbers hscore candidates fallback,
      reportOf_renumbers hscore candidates⟩

/-- Halving its numbers, which makes some of them collide, leaves the script with a stray position the
same score, and the log of its trace is halved too. -/
theorem numbers_carry_no_meaning_halved :
    ∃ g script script', make Catalog.small .default = .ok g ∧ g.compileTree .stray = .ok script ∧
      g.compileTree (Tree.stray.mapIds (· / 2)) = .ok script' ∧
      script'.source = script.source ∧ script'.toBytes = script.toBytes ∧
      script.blocks.length * 8 < 2 ^ (63 : Nat) ∧
      (script.trace () ()).result = .ok (3, [1, 2]) ∧
      (script'.trace () ()).result = .ok (3, [0, 1]) ∧
      (script'.best () [(), ()]).result = (script.best () [(), ()]).result := by
  obtain ⟨g, script, hg, hscript, htest⟩ :=
    exists_script Catalog.small .stray (fun script => script.blocks.length == 1 &&
      (script.trace () ()).result.toOption.any (· == (3, [1, 2]))) (by decide +kernel)
  rw [Bool.and_eq_true, beq_iff_eq] at htest
  obtain ⟨hlength, htrace⟩ := htest
  have hsmall : script.blocks.length * 8 < 2 ^ (63 : Nat) := by rw [hlength]; decide
  have hresult := Result.eq_ok_of_any htrace
  rcases numbers_carry_no_meaning hg .stray (· / 2) with ⟨e, he, _⟩ |
    ⟨script₁, script', hscript₁, hscript', hsource, hbytes, _, hruns⟩
  · rw [hscript] at he
    cases he
  · obtain rfl := Except.ok.inj (hscript.symm.trans hscript₁)
    obtain ⟨hscores, hchoices⟩ := hruns hsmall ()
    obtain ⟨_, _, htrace'⟩ := hscores ()
    rw [hresult] at htrace'
    exact ⟨g, script, script', hg, hscript, hscript', hsource, hbytes, hsmall, hresult, htrace',
      (hchoices [(), ()]).1.result_eq⟩

end Generator

end ScoreScript
