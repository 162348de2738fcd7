import ScoreScript.Proofs.Evaluation.Interpreter
import ScoreScript.Proofs.Evaluation.Soundness

/-!
# Compiling preserves the meaning

A compiled script makes the calls that its tree asks for, in the same order and with the same
literals, and comes to the same score or the same error.  The compiler finds predicates by position
and the comparison behind a call by its operator; the interpreter finds predicates by name and the
comparison by the number of parameters.

* `Run.interpretation` — what a run shows of calls and result;
* `Tree.bottom?_of_literal?`, `Tree.choiceLiterals?_of_compiledArguments` — the same literals;
* `CompiledCall.interpretation_run`, `Tree.interpretation_condition`, `Tree.interpretation_blocks` —
  the parts of a script;
* `Generator.score_interpretation` — the score of a script.
-/

namespace ScoreScript

variable {S A α β : Type}

/-! ### Runs as interpretations -/

/-- A call by the name of its predicate. -/
def Call.named (c : Call) : String × List Literal :=
  (c.predicate.name, c.arguments)

/-- The calls of a run and its result. -/
def Run.interpretation (run : Run α) : Interpretation α :=
  ⟨run.calls.map Call.named, run.result.mapError .failed⟩

namespace Run

theorem interpretation_bind (x : Run α) (f : α → Run β) :
    (x >>= f).interpretation = x.interpretation >>= fun value => (f value).interpretation := by
  obtain ⟨visited, calls, result⟩ := x
  cases result with
  | error e => rfl
  | ok value =>
    show Interpretation.mk ((calls ++ (f value).calls).map Call.named) _ = _
    rw [List.map_append]
    rfl

/-- Visiting a node does not show. -/
theorem interpretation_visit (id : NodeId) (f : Unit → Run β) :
    (Run.visit id >>= f).interpretation = (f ()).interpretation := by
  rw [interpretation_bind]
  rfl

end Run

/-! ### Names, literals and operators -/

/-- The predicate that is found by name is the one at the position that the compiler finds. -/
theorem Catalog.find?_of_findPredicate {catalog : Catalog S A} {name : String} {target : Nat}
    {p : Predicate} (h : findPredicate name 0 catalog.predicates = some (target, p)) :
    ∃ implementation, catalog.entries[target]? = some (p, implementation) ∧
      catalog.entries.find? (fun entry => entry.1.name == name) = some (p, implementation) := by
  have general : ∀ (entries : List (Predicate × Implementation S A)) (index : Nat),
      findPredicate name index (entries.map (·.1)) = some (target, p) →
        ∃ implementation, entries[target - index]? = some (p, implementation) ∧
          entries.find? (fun entry => entry.1.name == name) = some (p, implementation) := by
    intro entries
    induction entries with
    | nil =>
      intro index hfound
      cases hfound
    | cons entry rest ih =>
      intro index hfound
      obtain ⟨q, f⟩ := entry
      rw [List.map_cons, findPredicate] at hfound
      by_cases hname : q.name = name
      · rw [if_pos hname, Option.some.injEq, Prod.mk.injEq] at hfound
        obtain ⟨rfl, rfl⟩ := hfound
        refine ⟨f, by simp, ?_⟩
        rw [List.find?_cons_of_pos (by simp [hname])]
      · rw [if_neg hname] at hfound
        obtain ⟨f', hget, hfind⟩ := ih (index + 1) hfound
        have hle := (findPredicate_eq_some hfound).1
        refine ⟨f', ?_, ?_⟩
        · rw [show target - index = (target - (index + 1)) + 1 by omega, List.getElem?_cons_succ]
          exact hget
        · rw [List.find?_cons_of_neg (by simp [hname])]
          exact hfind
  exact general catalog.entries 0 h

namespace Tree

theorem bottom?_of_literal? {t : Tree} {literal : Literal} (h : t.literal? = some literal) :
    t.bottom? = some (.value literal) := by
  fun_induction literal? t with
  | case1 id literal' children =>
    obtain rfl := Option.some.inj h
    rw [bottom?]
  | case2 => cases h
  | case3 id r only ih => rw [bottom?, ih h]
  | case4 => cases h

theorem bottom?_of_comparator? {t : Tree} {op : Comparator} (h : t.comparator? = some op) :
    t.bottom? = some (.op op) := by
  fun_induction comparator? t with
  | case1 id op' children =>
    obtain rfl := Option.some.inj h
    rw [bottom?]
  | case2 => cases h
  | case3 id r only ih => rw [bottom?, ih h]
  | case4 => cases h

theorem choiceLiterals?_of_compiledArguments {params : List Param} {ts : List Tree}
    {values : List Literal} (h : CompiledArguments params ts values) :
    choiceLiterals? params ts = some values := by
  induction h with
  | nil => rw [choiceLiterals?]
  | state _ _ ih | action _ _ ih =>
    rw [choiceLiterals?, ih]
    simp
  | choice hvalue _ _ ih =>
    rw [choiceLiterals?, bottom?_of_literal? hvalue]
    simp only [ih, Option.map_some]

end Tree

/-! ### Calls -/

section Parts

variable {catalog : Catalog S A} {s : S} {a : A}

/-- A call is answered by the implementation at its position. -/
theorem Call.interpretation_run {c : Call} {implementation : Implementation S A}
    (h : catalog.entries[c.target]? = some (c.predicate, implementation)) :
    (c.run (catalog.answers s a)).interpretation =
      Interpretation.ask c.predicate (implementation s a) c.arguments := by
  have hanswer := Catalog.answers_of_entry h s a c.arguments
  rw [Run.interpretation, Call.run, Interpretation.ask, hanswer]
  cases c.predicate.returns.contains (implementation s a c.arguments) with
  | true => rfl
  | false => rfl

/-- What follows on an answer matters only for answers of the declared kind. -/
theorem Interpretation.ask_bind_congr {p : Predicate} {answer : List Literal → Literal}
    {literals : List Literal} {f f' : Literal → Interpretation β}
    (h : ∀ value, p.returns.contains value = true → f value = f' value) :
    (ask p answer literals >>= f) = (ask p answer literals >>= f') := by
  show andThen _ _ = andThen _ _
  unfold ask
  cases hlegal : p.returns.contains (answer literals) with
  | true =>
    simp only [if_true, andThen]
    rw [h _ hlegal]
  | false => rfl

/-- A compiled call says what the call says in the tree. -/
theorem CompiledCall.interpretation_run {id : NodeId} {target : Nat} {p : Predicate} {name : String}
    {parts : List Tree} {condition : Condition}
    (h : CompiledCall id target p (Tree.splitComparison parts).1 (Tree.splitComparison parts).2
      condition)
    (hfound : findPredicate name 0 catalog.predicates = some (target, p)) :
    (condition.run (catalog.answers s a)).interpretation =
      Tree.interpretCall catalog s a name parts := by
  obtain ⟨implementation, hentry, hfind⟩ := Catalog.find?_of_findPredicate hfound
  -- the compiler looks for an operator in the last place but one, the interpreter counts parameters
  have hparts := Tree.splitComparison_eq parts
  generalize (Tree.splitComparison parts).1 = arguments at h hparts
  generalize (Tree.splitComparison parts).2 = comparison at h hparts
  subst hparts
  cases h with
  | @bare values hlen hvalues hclass =>
    have hliterals :=
      Tree.choiceLiterals?_of_compiledArguments (compileArguments_eq_ok hlen hvalues)
    have hcall : (Call.run (catalog.answers s a) ⟨target, p, values⟩).interpretation =
      Interpretation.ask p (implementation s a) values := Call.interpretation_run hentry
    rw [Tree.interpretCall_append catalog s a hfind hlen hliterals, Condition.run,
      Run.interpretation_visit, Run.interpretation_bind, hcall]
    refine Interpretation.ask_bind_congr fun value hlegal => ?_
    obtain ⟨b, hb⟩ := Kind.bool?_of_contains hclass hlegal
    rw [hclass]
    cases value <;> cases hb
    rfl
  | @compared values opNode literalNode op literal hlen hvalues hclass hop hequality hliteral
      hmember =>
    have hliterals :=
      Tree.choiceLiterals?_of_compiledArguments (compileArguments_eq_ok hlen hvalues)
    have hcall : (Call.run (catalog.answers s a) ⟨target, p, values⟩).interpretation =
      Interpretation.ask p (implementation s a) values := Call.interpretation_run hentry
    rw [Tree.interpretCall_append catalog s a hfind hlen hliterals, Condition.run,
      Run.interpretation_visit, Run.interpretation_bind, hcall]
    refine Interpretation.ask_bind_congr fun value hlegal => ?_
    obtain ⟨holds, hholds⟩ := Kind.compare_of_contains hclass hequality hlegal hmember
    rw [asComparison, hholds, Tree.interpretAnswer_compared hclass
      (Tree.bottom?_of_comparator? hop) (Tree.bottom?_of_literal? hliteral) hholds]
    rfl

/-! ### Conditions -/

/-- A compiled condition says what the condition says in the tree. -/
theorem Tree.interpretation_condition {t : Tree} {condition : Condition}
    (h : t.compileCondition catalog.predicates = .ok condition) :
    (condition.run (catalog.answers s a)).interpretation = t.interpretCondition catalog s a := by
  fun_induction compileCondition catalog.predicates t generalizing condition with
  | case1 => cases h
  | case2 id t ih | case3 id t ih | case4 id t ih =>
    rw [interpretCondition]
    exact ih h
  | case5 id x y ihx ihy =>
    obtain ⟨cx, hx, h⟩ := Result.bind_eq_ok_iff.1 h
    obtain ⟨cy, hy, h⟩ := Result.bind_eq_ok_iff.1 h
    rw [← Result.pure_eq_ok_iff.1 h, Condition.run, Run.interpretation_visit,
      Run.interpretation_bind, ihx hx, interpretCondition]
    congr 1
    funext first
    cases first with
    | true => exact ihy hy
    | false => rfl
  | case6 id x y ihx ihy =>
    obtain ⟨cx, hx, h⟩ := Result.bind_eq_ok_iff.1 h
    obtain ⟨cy, hy, h⟩ := Result.bind_eq_ok_iff.1 h
    rw [← Result.pure_eq_ok_iff.1 h, Condition.run, Run.interpretation_visit,
      Run.interpretation_bind, ihx hx, interpretCondition]
    congr 1
    funext first
    cases first with
    | true => rfl
    | false => exact ihy hy
  | case7 id x ih =>
    obtain ⟨cx, hx, h⟩ := Result.bind_eq_ok_iff.1 h
    rw [← Result.pure_eq_ok_iff.1 h, Condition.run, Run.interpretation_visit,
      Run.interpretation_bind, ih hx, interpretCondition]
    rfl
  | case8 => cases h
  | case9 id i nameId name below parts target p hfound arguments comparison hsplit =>
    have hcall := compileCall_eq_ok h
    have harguments : (splitComparison parts).1 = arguments := congrArg Prod.fst hsplit
    have hcomparison : (splitComparison parts).2 = comparison := congrArg Prod.snd hsplit
    rw [← harguments, ← hcomparison] at hcall
    rw [interpretCondition]
    exact hcall.interpretation_run hfound
  | case10 => cases h

/-! ### Blocks -/

/-- Compiled blocks add up to what the blocks of the tree add up to, as long as no total within
reach is out of range. -/
theorem Tree.interpretation_blocks {range : Int} (hrange : 0 ≤ range) {ts : List Tree}
    {blocks : List Block} (h : ts.mapM (compileBlock catalog.predicates range) = .ok blocks)
    (total : Int) (hsmall : total.natAbs + blocks.length * range < 2 ^ (63 : Nat)) :
    (scoreFrom (catalog.answers s a) total blocks).interpretation =
      interpretBlocks catalog s a total ts := by
  induction ts generalizing blocks total with
  | nil =>
    cases Result.mapM_eq_ok_iff.1 h
    rw [scoreFrom, interpretBlocks]
    rfl
  | cons t rest ih =>
    cases Result.mapM_eq_ok_iff.1 h with
    | @cons _ block _ blocks hblock hblocks =>
      have hrest := fun total' => ih (Result.mapM_eq_ok_iff.2 hblocks) total'
      have hlength : ((block :: blocks).length : Int) * range = blocks.length * range + range := by
        rw [List.length_cons, Int.natCast_succ, Int.add_mul, Int.one_mul]
      have hnonneg : 0 ≤ (blocks.length : Int) * range :=
        Int.mul_nonneg (Int.natCast_nonneg _) hrange
      rw [hlength] at hsmall
      unfold compileBlock at hblock
      split at hblock
      · rename_i id condition body
        obtain ⟨c, hc, hblock⟩ := Result.bind_eq_ok_iff.1 hblock
        obtain ⟨delta, hdelta, hblock⟩ := Result.bind_eq_ok_iff.1 hblock
        obtain ⟨hinteger, _, hlo, hhi⟩ := compileDelta_eq_ok_iff.1 hdelta
        obtain ⟨value, hvalue, rfl⟩ := integer?_eq_some hinteger
        rw [← Result.pure_eq_ok_iff.1 hblock, scoreFrom, Run.interpretation_visit,
          Run.interpretation_bind, interpretation_condition hc, interpretBlocks,
          bottom?_of_literal? hvalue]
        congr 1
        funext holds
        cases holds with
        | true =>
          simp only [if_true]
          rw [adjust_of_small (by omega)]
          exact hrest _ (by omega)
        | false => exact hrest total (by omega)
      · cases hblock

end Parts

/-! ### Scripts -/

/-- The blocks of a tree that compiles are those that its interpretation goes through. -/
theorem Tree.interpretation_compile {catalog : Catalog S A} {s : S} {a : A} {range : Int}
    (hrange : 0 ≤ range) {t : Tree} {blocks : List Block}
    (h : t.compile catalog.predicates range = .ok blocks)
    (hsmall : blocks.length * range < 2 ^ (63 : Nat)) :
    (scoreBlocks (catalog.answers s a) blocks).interpretation = t.interpret catalog s a := by
  have hzero : ((0 : Int).natAbs : Int) + blocks.length * range < 2 ^ (63 : Nat) := by omega
  unfold compile at h
  split at h
  · rw [interpret]
    exact interpretation_blocks hrange h 0 hzero
  · obtain ⟨block, hblock, h⟩ := Result.bind_eq_ok_iff.1 h
    rw [← Result.pure_eq_ok_iff.1 h] at hzero ⊢
    rw [interpret]
    · exact interpretation_blocks hrange (Result.mapM_eq_ok_iff.2 (.cons hblock .nil)) 0 hzero
    · simp
  · cases h
  · cases h

namespace Generator

/-- **Compiling preserves the meaning.**  Scoring a script makes the calls that interpreting its
tree makes, with the same literals and in the same order, and comes to the same score or error. -/
theorem score_interpretation {catalog : Catalog S A} {config : Config} {g : Generator S A}
    (hmake : make catalog config = .ok g) {t : Tree} {script : Script S A}
    (h : g.compileTree t = .ok script) (hblocks : script.blocks.length * 8 < 2 ^ (63 : Nat)) (s : S)
    (a : A) : (script.score s a).interpretation = t.interpret catalog s a := by
  have hmade := make_eq_ok hmake
  obtain ⟨hrange, hsmall⟩ := hmade.length_mul_range_lt hblocks
  obtain ⟨_, hcatalog, _, hcompile⟩ := Script.assemble_eq_ok_iff.1 (compileTree_eq_ok_iff.1 h).2
  rw [hmade.catalog_eq] at hcatalog hcompile
  rw [Script.score, hcatalog]
  exact Tree.interpretation_compile hrange hcompile hsmall

end Generator

/-- The score of the script with wrappers and the calls that it makes are those of its tree. -/
theorem Generator.score_interpretation_small :
    ∃ g script, make Catalog.small .default = .ok g ∧ g.compileTree .wrapped = .ok script ∧
      script.blocks.length * 8 < 2 ^ (63 : Nat) ∧
      (script.score () ()).interpretation = Tree.wrapped.interpret Catalog.small () () ∧
      Tree.wrapped.interpret Catalog.small () () =
        ⟨[("stab", []), ("boost", [.stat .attack])], .ok 3⟩ := by
  obtain ⟨g, script, hg, hscript, hlength⟩ :=
    exists_script Catalog.small .wrapped (fun script => script.blocks.length == 2) (by decide +kernel)
  have hsmall : script.blocks.length * 8 < 2 ^ (63 : Nat) := by rw [beq_iff_eq.1 hlength]; decide
  exact ⟨g, script, hg, hscript, hsmall, score_interpretation hg hscript hsmall () (), rfl⟩

end ScoreScript
