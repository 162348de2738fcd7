import ScoreScript.Evaluation.Logging
import ScoreScript.Proofs.Evaluation.CallLogs
import ScoreScript.Proofs.Evaluation.Meaning
import ScoreScript.Proofs.Evaluation.Reached

/-!
# Traces are exact

A trace is the log that scoring leaves when it is handed an empty one.  Scoring is the same with a log
and without one.  When it comes to a score, the log has the outermost blocks and those parts of their
conditions that the evaluation reaches, and no other nodes.

* `Script.scoreInto` — scoring with a log or without one;
* `Run.bind_eq_ok` — what is visited by one run after another, when they succeed;
* `Run.operands` — a conjunction or a disjunction, which may do without the second operand;
* `Tree.visited_condition`, `mem_visited_scoreFrom` — the nodes that conditions and blocks visit;
* `Generator.trace_exact` — scores, calls and logs of accepted scripts;
* `Generator.trace_not_all_nodes` — nodes that nothing is compiled of are in no log.
-/

namespace ScoreScript

variable {S A α β : Type}

/-! ### Runs -/

/-- What it takes for one run after another to succeed, and what they visit. -/
theorem Run.bind_eq_ok {x : Run α} {f : α → Run β} {b : β} (h : (x >>= f).result = .ok b) :
    ∃ value, x.result = .ok value ∧ (f value).result = .ok b ∧
      (x >>= f).visited = x.visited ++ (f value).visited := by
  rw [result_bind] at h
  obtain ⟨value, hvalue, hb⟩ := Result.bind_eq_ok_iff.1 h
  refine ⟨value, hvalue, hb, ?_⟩
  show (x.andThen f).visited = _
  rw [andThen_ok hvalue]

/-- A visit comes first. -/
theorem Run.visit_bind_eq_ok {id : NodeId} {x : Run β} {b : β}
    (h : (visit id >>= fun _ => x).result = .ok b) :
    x.result = .ok b ∧ (visit id >>= fun _ => x).visited = id :: x.visited := by
  obtain ⟨_, _, hx, hvisited⟩ := bind_eq_ok h
  exact ⟨hx, hvisited⟩

/-! ### Conditions -/

section Parts

variable {catalog : Catalog S A} {s : S} {a : A}

/-- The condition comes to a truth value. -/
def Tree.ComesTo (catalog : Catalog S A) (s : S) (a : A) (t : Tree) (b : Bool) : Prop :=
  (t.interpretCondition catalog s a).result = .ok b

theorem Tree.comesTo_iff {t : Tree} {condition : Condition} {b b' : Bool}
    (h : t.compileCondition catalog.predicates = .ok condition)
    (hrun : (condition.run (catalog.answers s a)).result = .ok b) :
    t.ComesTo catalog s a b' ↔ b' = b := by
  have hresult : (t.interpretCondition catalog s a).result = .ok b := by
    rw [← interpretation_condition h, Run.interpretation, hrun]
    rfl
  rw [ComesTo, hresult, Except.ok.injEq, eq_comm]

/-- A node with two operands.  The second one is run only if the first one comes to a given truth value;
if it does not, the other truth value is the result. -/
def Run.operands (id : NodeId) (goesOn other : Bool) (x y : Run Bool) : Run Bool := do
  visit id
  let first ← x
  if goesOn = first then y else pure other

theorem Condition.run_and (answers : Answers) (id : NodeId) (x y : Condition) :
    (Condition.and id x y).run answers =
      .operands id true false (x.run answers) (y.run answers) := by
  simp only [Condition.run, Run.operands, eq_comm]

theorem Condition.run_or (answers : Answers) (id : NodeId) (x y : Condition) :
    (Condition.or id x y).run answers =
      .operands id false true (x.run answers) (y.run answers) := by
  rw [Condition.run, Run.operands]
  congr 1
  funext _
  congr 1
  funext first
  cases first <;> rfl

/-- What it takes for a node with two operands to succeed, and what it visits. -/
theorem Run.operands_eq_ok {id : NodeId} {x y : Run Bool} {goesOn other b : Bool}
    (h : (operands id goesOn other x y).result = .ok b) :
    ∃ first, x.result = .ok first ∧ (goesOn = first → y.result = .ok b) ∧
      ∀ node, node ∈ (operands id goesOn other x y).visited ↔
        node = id ∨ node ∈ x.visited ∨ goesOn = first ∧ node ∈ y.visited := by
  rw [operands] at h ⊢
  obtain ⟨hrun, hvisited⟩ := visit_bind_eq_ok h
  obtain ⟨first, hfirst, hrun, hvisited'⟩ := bind_eq_ok hrun
  refine ⟨first, hfirst, fun hgoes => by rwa [if_pos hgoes] at hrun, fun node => ?_⟩
  rw [hvisited, hvisited', List.mem_cons, List.mem_append]
  by_cases hgoes : goesOn = first
  · rw [if_pos hgoes, and_iff_right hgoes]
  · have hpure : node ∉ (pure other : Run Bool).visited := List.not_mem_nil
    rw [if_neg hgoes]
    simp only [hgoes, hpure, false_and]

/-- A call visits its node only. -/
theorem CompiledCall.visited_run {id : NodeId} {target : Nat} {p : Predicate} {arguments : List Tree}
    {comparison : Option (Tree × Tree)} {condition : Condition}
    (h : CompiledCall id target p arguments comparison condition) {answers : Answers} {b : Bool}
    (hrun : (condition.run answers).result = .ok b) : (condition.run answers).visited = [id] := by
  cases h with
  | bare =>
    rw [Condition.run] at hrun ⊢
    obtain ⟨hrun, hvisited⟩ := Run.visit_bind_eq_ok hrun
    obtain ⟨value, _, _, hvisited'⟩ := Run.bind_eq_ok hrun
    rw [hvisited, hvisited', (silent_asTruth _ _).visited_eq]
    rfl
  | compared =>
    rw [Condition.run] at hrun ⊢
    obtain ⟨hrun, hvisited⟩ := Run.visit_bind_eq_ok hrun
    obtain ⟨value, _, _, hvisited'⟩ := Run.bind_eq_ok hrun
    rw [hvisited, hvisited', (silent_asComparison _ _ _ _).visited_eq]
    rfl

/-- The number of a given node, or of one with a property. -/
theorem Tree.exists_id_eq_or {id : NodeId} {label : Symbol} {children : List Tree} {P : Tree → Prop}
    {x : NodeId} :
    (∃ n, (n = node id label children ∨ P n) ∧ n.id = x) ↔ x = id ∨ ∃ n, P n ∧ n.id = x := by
  simp only [or_and_right, exists_or, exists_eq_left]
  exact or_congr_left eq_comm

/-- A node with two operands visits what is reached in it, if its operands do.  The evaluation goes on
to the second operand, and so does what is reached, if the first one comes to a given truth value. -/
theorem Tree.visited_operands {id x : NodeId} {label : Symbol} {y z : Tree} {first second : Condition}
    {goesOn other b : Bool}
    (hreached : ∀ n, Reached (ComesTo catalog s a) (node id label [y, z]) n ↔
      n = node id label [y, z] ∨ Reached (ComesTo catalog s a) y n ∨
        (y.ComesTo catalog s a goesOn ∧ Reached (ComesTo catalog s a) z n))
    (hcompile : y.compileCondition catalog.predicates = .ok first)
    (hrun : (Run.operands id goesOn other (first.run (catalog.answers s a))
      (second.run (catalog.answers s a))).result = .ok b)
    (hfirst : ∀ {b}, (first.run (catalog.answers s a)).result = .ok b →
      (x ∈ (first.run (catalog.answers s a)).visited ↔
        ∃ n, Reached (ComesTo catalog s a) y n ∧ n.id = x))
    (hsecond : ∀ {b}, (second.run (catalog.answers s a)).result = .ok b →
      (x ∈ (second.run (catalog.answers s a)).visited ↔
        ∃ n, Reached (ComesTo catalog s a) z n ∧ n.id = x)) :
    x ∈ (Run.operands id goesOn other (first.run (catalog.answers s a))
        (second.run (catalog.answers s a))).visited ↔
      ∃ n, Reached (ComesTo catalog s a) (node id label [y, z]) n ∧ n.id = x := by
  obtain ⟨value, hvalue, hgoes, hvisited⟩ := Run.operands_eq_ok hrun
  rw [hvisited, hfirst hvalue, and_congr_right fun heq => hsecond (hgoes heq)]
  simp only [hreached, comesTo_iff hcompile hvalue]
  rw [exists_id_eq_or]
  simp only [or_and_right, exists_or, and_assoc, exists_and_left]

/-- The nodes that a condition visits are those that are reached. -/
theorem Tree.visited_condition {t : Tree} {condition : Condition} {b : Bool} (hdistinct : t.Distinct)
    (h : t.compileCondition catalog.predicates = .ok condition)
    (hrun : (condition.run (catalog.answers s a)).result = .ok b) (x : NodeId) :
    x ∈ (condition.run (catalog.answers s a)).visited ↔
      ∃ n, Reached (ComesTo catalog s a) t n ∧ n.id = x := by
  -- along the compiler: wrappers, the three connectives, calls, and what does not compile
  fun_induction compileCondition catalog.predicates t generalizing condition b with
  | case1 => cases h
  | case2 id t ih | case3 id t ih | case4 id t ih =>
    rw [ih (hdistinct.of_mem_children (List.mem_singleton_self t)) h hrun]
    simp only [reached_wrapper hdistinct (by simp)]
  | case5 id y z ihy ihz =>
    obtain ⟨cy, hy, h⟩ := Result.bind_eq_ok_iff.1 h
    obtain ⟨cz, hz, h⟩ := Result.bind_eq_ok_iff.1 h
    rw [← Result.pure_eq_ok_iff.1 h, Condition.run_and] at hrun ⊢
    have hdy := hdistinct.of_mem_children List.mem_cons_self
    have hdz := hdistinct.of_mem_children (List.mem_cons_of_mem _ List.mem_cons_self)
    exact visited_operands (fun _ => reached_conjunction hdistinct) hy hrun (ihy hdy hy) (ihz hdz hz)
  | case6 id y z ihy ihz =>
    obtain ⟨cy, hy, h⟩ := Result.bind_eq_ok_iff.1 h
    obtain ⟨cz, hz, h⟩ := Result.bind_eq_ok_iff.1 h
    rw [← Result.pure_eq_ok_iff.1 h, Condition.run_or] at hrun ⊢
    have hdy := hdistinct.of_mem_children List.mem_cons_self
    have hdz := hdistinct.of_mem_children (List.mem_cons_of_mem _ List.mem_cons_self)
    exact visited_operands (fun _ => reached_disjunction hdistinct) hy hrun (ihy hdy hy) (ihz hdz hz)
  | case7 id y ih =>
    obtain ⟨cy, hy, h⟩ := Result.bind_eq_ok_iff.1 h
    rw [← Result.pure_eq_ok_iff.1 h, Condition.run] at hrun ⊢
    obtain ⟨hrun, hvisited⟩ := Run.visit_bind_eq_ok hrun
    obtain ⟨inner, hinner, _, hvisited'⟩ := Run.bind_eq_ok hrun
    have hdy := hdistinct.of_mem_children (List.mem_singleton_self y)
    have hpure : x ∉ (pure !inner : Run Bool).visited := List.not_mem_nil
    simp only [reached_negation hdistinct]
    rw [exists_id_eq_or, hvisited, hvisited', List.mem_cons, List.mem_append, ih hdy hy hinner,
      or_iff_left hpure]
  | case8 => cases h
  | case9 id i nameId name below parts target p hfound arguments comparison hsplit =>
    have hcall := compileCall_eq_ok h
    rw [hcall.visited_run hrun]
    simp only [reached_call hdistinct, exists_eq_left, List.mem_singleton]
    exact eq_comm
  | case10 => cases h

/-! ### Blocks -/

theorem scoreFrom_cons (answers : Answers) (total : Int) (b : Block) (rest : List Block) :
    scoreFrom answers total (b :: rest) =
      (Run.visit b.id >>= fun _ => b.condition.run answers >>= fun holds =>
        (if holds then adjust b.id total b.delta else pure total) >>= fun total =>
          scoreFrom answers total rest) := by
  rw [scoreFrom]
  congr 1
  funext _
  congr 1
  funext holds
  cases holds <;> rfl

/-- When blocks come to a score, all their conditions succeed, and what is visited are the blocks and
what their conditions visit. -/
theorem mem_visited_scoreFrom {answers : Answers} {total value : Int} {blocks : List Block}
    (h : (scoreFrom answers total blocks).result = .ok value) :
    (∀ b ∈ blocks, ∃ holds, (b.condition.run answers).result = .ok holds) ∧
      ∀ x, x ∈ (scoreFrom answers total blocks).visited ↔
        ∃ b ∈ blocks, x = b.id ∨ x ∈ (b.condition.run answers).visited := by
  induction blocks generalizing total with
  | nil =>
    refine ⟨fun b hb => absurd hb List.not_mem_nil, fun x => iff_of_false List.not_mem_nil ?_⟩
    rintro ⟨b, hb, _⟩
    exact absurd hb List.not_mem_nil
  | cons b rest ih =>
    rw [scoreFrom_cons] at h ⊢
    obtain ⟨hrun, hvisited⟩ := Run.visit_bind_eq_ok h
    obtain ⟨holds, hholds, hrun, hvisited'⟩ := Run.bind_eq_ok hrun
    obtain ⟨total', _, hrest, hvisited''⟩ := Run.bind_eq_ok hrun
    obtain ⟨hall, hmem⟩ := ih hrest
    -- adding the adjustment visits nothing
    have hsilent : (if holds then adjust b.id total b.delta else pure total).visited = [] := by
      cases holds with
      | true => exact (silent_adjust b.id total b.delta).visited_eq
      | false => rfl
    refine ⟨List.forall_mem_cons.2 ⟨⟨holds, hholds⟩, hall⟩, fun x => ?_⟩
    rw [hvisited, hvisited', hvisited'', hsilent, List.nil_append, List.mem_cons, List.mem_append,
      hmem, ← or_assoc, List.exists_mem_cons_iff]

/-- What is compiled as blocks are the outermost blocks of the tree. -/
theorem Tree.exists_outermostBlocks {ps : List Predicate} {range : Int} {t : Tree}
    {blocks : List Block} (hdistinct : t.Distinct) (h : t.compile ps range = .ok blocks) :
    ∃ us, List.Forall₂ (fun u block => u.compileBlock ps range = .ok block) us blocks ∧
      (∀ u, t.OutermostBlock u ↔ u ∈ us) ∧ ∀ u ∈ us, u.Distinct := by
  unfold compile at h
  split at h
  · rename_i id us
    refine ⟨us, Result.mapM_eq_ok_iff.1 h, fun u => ?_, fun u hu => hdistinct.of_mem_children hu⟩
    refine outermostBlock_start hdistinct fun u hu => ?_
    have hmem : u.compileBlock ps range ∈ blocks.map .ok := by
      rw [← Result.map_of_mapM_eq_ok h]
      exact List.mem_map_of_mem hu
    obtain ⟨block, _, hblock⟩ := List.mem_map.1 hmem
    obtain ⟨_, _, rfl, _⟩ := compileBlock_eq_ok hblock.symm
    rfl
  · rename_i id parts
    obtain ⟨block, hblock, h⟩ := Result.bind_eq_ok_iff.1 h
    rw [← Result.pure_eq_ok_iff.1 h]
    refine ⟨[node id (.rule .block) parts], .cons hblock .nil, fun u => ?_, fun u hu => ?_⟩
    · rw [outermostBlock_self rfl, List.mem_singleton]
    · rwa [List.mem_singleton.1 hu]
  · cases h
  · cases h

/-- The number is that of the block, or of a part that is reached in its condition. -/
def Tree.TracedIn (catalog : Catalog S A) (s : S) (a : A) (block : Tree) (x : NodeId) : Prop :=
  block.id = x ∨ ∃ condition body n, block.children = [condition, body] ∧
    Reached (ComesTo catalog s a) condition n ∧ n.id = x

/-- The number is traced in an outermost block. -/
def Tree.Traced (catalog : Catalog S A) (s : S) (a : A) (t : Tree) (x : NodeId) : Prop :=
  ∃ block, t.OutermostBlock block ∧ block.TracedIn catalog s a x

/-- What a block visits, with its condition, is traced in it. -/
theorem Tree.tracedIn_iff {range : Int} {u : Tree} {block : Block} {holds : Bool}
    (hdistinct : u.Distinct) (h : u.compileBlock catalog.predicates range = .ok block)
    (hrun : (block.condition.run (catalog.answers s a)).result = .ok holds) (x : NodeId) :
    x = block.id ∨ x ∈ (block.condition.run (catalog.answers s a)).visited ↔
      u.TracedIn catalog s a x := by
  obtain ⟨condition, body, rfl, hcondition⟩ := compileBlock_eq_ok h
  have hd := hdistinct.of_mem_children List.mem_cons_self
  rw [visited_condition hd hcondition hrun]
  constructor
  · rintro (rfl | ⟨n, hn, hid⟩)
    · exact Or.inl rfl
    · exact Or.inr ⟨condition, body, n, rfl, hn, hid⟩
  · rintro (rfl | ⟨condition', body', n, hchildren, hn, hid⟩)
    · exact Or.inl rfl
    · obtain ⟨rfl, _⟩ := List.cons.inj hchildren
      exact Or.inr ⟨n, hn, hid⟩

/-- When a tree comes to a score, what is visited is what is traced. -/
theorem Tree.visited_scoreBlocks {range value : Int} {t : Tree} {blocks : List Block}
    (hdistinct : t.Distinct) (h : t.compile catalog.predicates range = .ok blocks)
    (hrun : (scoreBlocks (catalog.answers s a) blocks).result = .ok value) (x : NodeId) :
    x ∈ (scoreBlocks (catalog.answers s a) blocks).visited ↔ t.Traced catalog s a x := by
  obtain ⟨us, hus, houtermost, hparts⟩ := exists_outermostBlocks hdistinct h
  obtain ⟨hall, hmem⟩ := mem_visited_scoreFrom hrun
  rw [scoreBlocks, hmem, Traced]
  simp only [houtermost]
  clear h hrun hmem houtermost
  induction hus with
  | nil => simp
  | @cons u block us blocks hcompile _ ih =>
    obtain ⟨⟨holds, hholds⟩, hall⟩ := List.forall_mem_cons.1 hall
    obtain ⟨hu, hparts⟩ := List.forall_mem_cons.1 hparts
    simp only [List.exists_mem_cons_iff, ih hparts hall, tracedIn_iff hu hcompile hholds]

end Parts

/-! ### Scripts -/

/-- The score of an action, with a log or without one. -/
def Script.scoreInto (script : Script S A) (s : S) (a : A) : Logging Int :=
  scoreLogging (script.catalog.answers s a) script.blocks

theorem Script.scoreInto_eq (script : Script S A) (s : S) (a : A) :
    script.scoreInto s a = (script.score s a).into :=
  scoreLogging_eq _ _

namespace Generator

/-- **Traces are exact.**  Let all nodes of an accepted script have different numbers.  With a log the
script makes the same calls and comes to the same score or error as without one; a trace is what an empty
log becomes.  When there is a score, the trace has the outermost blocks and the connectives and calls of
their conditions that the evaluation reaches: those that stand below no call, in the second operand of a
conjunction only if the first operand is true, and in that of a disjunction only if it is false. -/
theorem trace_exact {g : Generator S A} {script : Script S A} (h : g.Accepts script)
    (hdistinct : script.tree.Distinct) (s : S) (a : A) :
    ((script.scoreInto s a (some [])).calls = (script.scoreInto s a none).calls ∧
      (script.scoreInto s a (some [])).result = (script.scoreInto s a none).result) ∧
    ((script.score s a).calls = (script.scoreInto s a none).calls ∧
      (script.score s a).result = (script.scoreInto s a none).result) ∧
    ((script.trace s a).calls = (script.scoreInto s a (some [])).calls ∧
      (script.trace s a).result = (script.scoreInto s a (some [])).result.map fun value =>
        (value, (script.scoreInto s a (some [])).log.getD [])) ∧
    ∀ value log, (script.trace s a).result = .ok (value, log) →
      log.Pairwise (· < ·) ∧ ∀ x, x ∈ log ↔ script.tree.Traced g.catalog s a x := by
  obtain ⟨_, hcatalog, _, hcompile⟩ := Script.assemble_eq_ok_iff.1 h.assemble_eq
  rw [Script.scoreInto_eq]
  refine ⟨⟨rfl, rfl⟩, ⟨rfl, rfl⟩, ⟨rfl, rfl⟩, fun value log htrace => ?_⟩
  obtain ⟨value', hscore, hlog⟩ := Result.map_eq_ok_iff.1 htrace
  obtain ⟨rfl, rfl⟩ := Prod.mk.inj hlog
  refine ⟨CallLog.pairwise_ofVisits _, fun x => ?_⟩
  have hrun : script.score s a = scoreBlocks (g.catalog.answers s a) script.blocks := by
    rw [Script.score, hcatalog]
  rw [hrun] at hscore ⊢
  rw [CallLog.mem_ofVisits]
  exact Tree.visited_scoreBlocks hdistinct hcompile hscore x

/-- The small generator accepts the script of a tree, and its trace comes to a value and a log, if
evaluation says so. -/
theorem exists_trace {t : Tree} {value : Int} {log : CallLog}
    (h : (make Catalog.small .default).toOption.any (fun g =>
      (g.compileTree t).toOption.any fun script =>
        (script.trace () ()).result.toOption.any (· == (value, log))) = true) :
    ∃ g script, make Catalog.small .default = .ok g ∧ g.Accepts script ∧ script.tree = t ∧
      (script.trace () ()).result = .ok (value, log) := by
  obtain ⟨g, script, hg, hscript, htrace⟩ := exists_script _ _ _ h
  exact ⟨g, script, hg, .compiled hscript, tree_eq_of_compileTree hscript,
    Result.eq_ok_of_any htrace⟩

/-- In the first block of the script with wrappers the second operand of the conjunction is not reached.
Among the nodes that are traced there is no other that the second block has. -/
theorem trace_exact_wrapped :
    ∃ g script, make Catalog.small .default = .ok g ∧ g.Accepts script ∧ script.tree.Distinct ∧
      (script.trace () ()).result = .ok (3, [1, 2, 3, 4, 5, 20, 21]) ∧
      ∀ x, x ∈ [1, 2, 3, 4, 5, 20, 21] ↔ script.tree.Traced Catalog.small () () x := by
  obtain ⟨g, script, hg, haccepts, htree, htrace⟩ : ∃ g script, make Catalog.small .default = .ok g ∧
      g.Accepts script ∧ script.tree = Tree.wrapped.numbered 0 ∧
        (script.trace () ()).result = .ok (3, [1, 2, 3, 4, 5, 20, 21]) :=
    exists_trace (by decide +kernel)
  have hdistinct : script.tree.Distinct := by
    rw [htree]
    exact Tree.distinct_numbered (by decide)
  obtain ⟨_, _, _, hlog⟩ := trace_exact haccepts hdistinct () ()
  obtain ⟨_, hmem⟩ := hlog _ _ htrace
  rw [(make_eq_ok hg).catalog_eq] at hmem
  exact ⟨g, script, hg, haccepts, hdistinct, htrace, hmem⟩

end Generator

namespace Tree

/-- A call that is compared with a literal below a negation. -/
def veiledCondition : Tree :=
  node 2 (.rule (.predicate 1))
    [node 3 (.terminal (.name "boost")) [], node 4 (.terminal .state) [],
      node 5 (.rule (.literal .baseStat)) [node 6 (.terminal (.value (.stat .attack))) []],
      node 7 (.rule .numericComparator) [node 8 (.terminal (.op .greaterOrEqual)) []],
      node 9 (.rule .negation) [node 10 (.terminal (.value (.int 2))) []]]

theorem labels_veiledCondition :
    veiledCondition.preorder.map label =
      [.rule (.predicate 1), .terminal (.name "boost"), .terminal .state, .rule (.literal .baseStat),
        .terminal (.value (.stat .attack)), .rule .numericComparator,
        .terminal (.op .greaterOrEqual), .rule .negation, .terminal (.value (.int 2))] := by
  simp [veiledCondition, preorder_node, preorderAll_cons, preorderAll, label]

/-- An adjustment by the literal below another block. -/
def veiledBody : Tree :=
  node 11 (.rule .adjustment) [node 12 (.rule .block) [node 13 (.terminal (.value (.int 3))) []]]

/-- The script of the block with this condition and this adjustment. -/
def veiled : Tree :=
  node 0 (.rule .start) [node 1 (.rule .block) [veiledCondition, veiledBody]]

theorem distinct_veiled : veiled.Distinct := by
  have hnumbered : veiled.numbered 0 = veiled := rfl
  rw [← hnumbered]
  exact distinct_numbered (by decide)

end Tree

/-- The veiled script is accepted and comes to a score.  Its log has neither the block below the
adjustment nor the negation in the condition, above which there is no conjunction and no disjunction. -/
theorem Generator.trace_not_all_nodes :
    ∃ g script, make Catalog.small .default = .ok g ∧ g.Accepts script ∧ script.tree.Distinct ∧
      (script.trace () ()).result = .ok (3, [1, 2]) ∧
      (∃ b ∈ script.tree.preorder, b.label = .rule .block ∧ b.id ∉ [1, 2]) ∧
      ∃ condition body, Tree.node 1 (.rule .block) [condition, body] ∈ script.tree.preorder ∧
        (∀ p ∈ condition.preorder, p.label ≠ .rule .conjunction ∧ p.label ≠ .rule .disjunction) ∧
        ∃ n ∈ condition.preorder, n.label = .rule .negation ∧ n.id ∉ [1, 2] := by
  obtain ⟨g, script, hg, haccepts, htree, htrace⟩ : ∃ g script, make Catalog.small .default = .ok g ∧
      g.Accepts script ∧ script.tree = Tree.veiled ∧ (script.trace () ()).result = .ok (3, [1, 2]) :=
    exists_trace (by decide +kernel)
  refine ⟨g, script, hg, haccepts, htree ▸ Tree.distinct_veiled, htrace, ?_, ?_⟩
  · rw [htree]
    refine ⟨.node 12 (.rule .block) [.node 13 (.terminal (.value (.int 3))) []], ?_, rfl, by decide⟩
    simp [Tree.veiled, Tree.veiledBody, Tree.mem_preorder_node]
  · rw [htree]
    refine ⟨Tree.veiledCondition, Tree.veiledBody, ?_, ?_,
      .node 9 (.rule .negation) [.node 10 (.terminal (.value (.int 2))) []], ?_, rfl, by decide⟩
    · simp [Tree.veiled, Tree.mem_preorder_node]
    · intro p hp
      have hlabel : p.label ∈ Tree.veiledCondition.preorder.map Tree.label := List.mem_map_of_mem hp
      rw [Tree.labels_veiledCondition] at hlabel
      constructor
      · intro hconjunction
        rw [hconjunction] at hlabel
        exact absurd hlabel (by decide)
      · intro hdisjunction
        rw [hdisjunction] at hlabel
        exact absurd hlabel (by decide)
    · simp [Tree.veiledCondition, Tree.mem_preorder_node]

end ScoreScript
