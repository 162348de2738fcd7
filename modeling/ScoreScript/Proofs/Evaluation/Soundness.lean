import ScoreScript.Cache.Store
import ScoreScript.Proofs.Script.Generation
import ScoreScript.Proofs.Script.Typing
import ScoreScript.Proofs.Tree.Limits

/-!
# Scores of accepted scripts

A well-typed script scores unless a predicate answers with something outside its declared kind; the
first such answer ends the run and is what the error reports.  Truth values where there should be
some, comparisons without a result and totals out of range do not come up.

* `Run.Sound` — what a run of well-typed blocks may come to;
* `Run.Sound.andThen` — soundness of one run after another;
* `Condition.run_sound`, `scoreFrom_sound` — runs of conditions and of blocks are sound;
* `Generator.Accepts`, `Generator.Accepts.compileTree_eq` — the ways to a script, all of which
  compile its tree;
* `Generator.score_sound` — the score of every accepted script.
-/

namespace ScoreScript

variable {S A α β : Type}

/-! ### Literals of a kind -/

theorem Kind.bool?_of_contains {kind : Kind} {value : Literal} (hclass : kind.kindClass = .boolean)
    (h : kind.contains value = true) : ∃ b, value.bool? = some b := by
  cases kind <;> simp only [kindClass, reduceCtorEq] at hclass
  cases value <;> simp_all [contains, intRange?, Literal.bool?]

theorem Kind.quarters?_of_contains {kind : Kind} {value : Literal}
    (hclass : kind.kindClass = .numeric) (h : kind.contains value = true) :
    ∃ n, value.quarters? = some n := by
  cases kind <;> simp only [kindClass, reduceCtorEq] at hclass <;>
    cases value <;> simp_all [contains, intRange?, Literal.quarters?]

theorem Kind.sameSort_of_contains {kind : Kind} {a b : Literal} (ha : kind.contains a = true)
    (hb : kind.contains b = true) : a.sameSort b = true := by
  cases kind <;> cases a <;> simp [contains, intRange?] at ha <;>
    cases b <;> simp [contains, intRange?] at hb <;> rfl

/-- Two members of a kind compare by every operator that the kind allows. -/
theorem Kind.compare_of_contains {kind : Kind} {a b : Literal} {op : Comparator}
    (hclass : kind.kindClass ≠ .boolean)
    (hop : kind.kindClass = .enumerated → op.isEquality = true) (ha : kind.contains a = true)
    (hb : kind.contains b = true) : ∃ holds, Literal.compare op a b = some holds := by
  cases hkind : kind.kindClass with
  | boolean => exact absurd hkind hclass
  | numeric =>
    obtain ⟨m, hm⟩ := quarters?_of_contains hkind ha
    obtain ⟨n, hn⟩ := quarters?_of_contains hkind hb
    exact ⟨_, by rw [Literal.compare, hm, hn]⟩
  | enumerated =>
    have hequality : ∃ holds, Literal.compareEquality op a b = some holds := by
      have := hop hkind
      cases op <;> simp_all [Comparator.isEquality, Literal.compareEquality]
    obtain ⟨holds, hholds⟩ := hequality
    cases hm : a.quarters? with
    | none =>
      exact ⟨holds, by rw [Literal.compare, hm]; simp [sameSort_of_contains ha hb, hholds]⟩
    | some m =>
      cases hn : b.quarters? with
      | none =>
        exact ⟨holds, by rw [Literal.compare, hm, hn]; simp [sameSort_of_contains ha hb, hholds]⟩
      | some n => exact ⟨_, by rw [Literal.compare, hm, hn]⟩

/-! ### Sound runs -/

/-- A predicate of the catalog answers the call with a member of its declared kind. -/
def Call.Answered (catalog : Catalog S A) (s : S) (a : A) (c : Call) : Prop :=
  ∃ f, catalog.entries[c.target]? = some (c.predicate, f) ∧
    c.predicate.returns.contains (f s a c.arguments) = true

/-- A predicate of the catalog answers the call with something else, which the error reports. -/
def Call.Offends (catalog : Catalog S A) (s : S) (a : A) (c : Call) (error : EvalError) : Prop :=
  ∃ f, catalog.entries[c.target]? = some (c.predicate, f) ∧
    c.predicate.returns.contains (f s a c.arguments) = false ∧
    error = .illegalReturn c.predicate.name c.predicate.returns (f s a c.arguments)

/-- Either every call of the run is answered as declared and the run has a value with a property, or
its last call is the first that is not, and the run ends with the error that reports it. -/
inductive Run.Sound (catalog : Catalog S A) (s : S) (a : A) (post : α → Prop) (run : Run α) : Prop
  | finished (value : α) :
    run.result = .ok value → post value → (∀ c ∈ run.calls, c.Answered catalog s a) →
    Sound catalog s a post run
  | stopped (error : EvalError) (before : List Call) (c : Call) :
    run.result = .error error → run.calls = before ++ [c] →
    (∀ b ∈ before, b.Answered catalog s a) → c.Offends catalog s a error →
    Sound catalog s a post run

namespace Run.Sound

variable {catalog : Catalog S A} {s : S} {a : A} {post : α → Prop} {post' : β → Prop}

theorem pure {value : α} (h : post value) : Run.Sound catalog s a post (pure value : Run α) :=
  .finished value rfl h (fun _ hc => absurd hc List.not_mem_nil)

theorem visit (id : NodeId) : Run.Sound catalog s a (fun _ => True) (Run.visit id) :=
  .finished () rfl trivial (fun _ hc => absurd hc List.not_mem_nil)

theorem mono {post' : α → Prop} {run : Run α} (h : run.Sound catalog s a post)
    (hpost : ∀ value, post value → post' value) : run.Sound catalog s a post' := by
  cases h with
  | finished value hresult hvalue hanswered =>
    exact .finished value hresult (hpost value hvalue) hanswered
  | stopped error before c hresult hcalls hbefore hc =>
    exact .stopped error before c hresult hcalls hbefore hc

/-- A sound run ends with no total out of range. -/
theorem ne_overflow {run : Run α} (h : run.Sound catalog s a post) (id : NodeId) :
    run.result ≠ .error (.scoreOverflow id) := by
  cases h with
  | finished value hresult _ _ =>
    rw [hresult]
    intro h
    cases h
  | stopped error before c hresult _ _ hc =>
    obtain ⟨f, _, _, rfl⟩ := hc
    rw [hresult]
    intro h
    cases h

/-- Sound runs one after another make a sound run. -/
theorem andThen {x : Run α} {f : α → Run β} (hx : x.Sound catalog s a post)
    (hf : ∀ value, post value → (f value).Sound catalog s a post') :
    (x >>= f).Sound catalog s a post' := by
  show (x.andThen f).Sound catalog s a post'
  cases hx with
  | stopped error before c hresult hcalls hbefore hc =>
    rw [andThen_error hresult]
    exact .stopped error before c rfl hcalls hbefore hc
  | finished value hresult hpost hanswered =>
    rw [andThen_ok hresult]
    cases hf value hpost with
    | finished value' hresult' hpost' hanswered' =>
      refine .finished value' hresult' hpost' ?_
      intro c hc
      exact (List.mem_append.1 hc).elim (hanswered c) (hanswered' c)
    | stopped error before c hresult' hcalls hbefore hc =>
      refine .stopped error (x.calls ++ before) c hresult' ?_ ?_ hc
      · show x.calls ++ (f value).calls = _
        rw [hcalls, List.append_assoc]
      · intro b hb
        exact (List.mem_append.1 hb).elim (hanswered b) (hbefore b)

end Run.Sound

/-! ### Runs of well-typed scripts -/

section Runs

variable {catalog : Catalog S A} {s : S} {a : A}

/-- A well-typed call finds its predicate in the catalog. -/
theorem Call.WellTyped.exists_entry {c : Call} (h : c.WellTyped catalog.predicates) :
    ∃ f, catalog.entries[c.target]? = some (c.predicate, f) := by
  have hentry := h.declared
  rw [Catalog.predicates, List.getElem?_map, Option.map_eq_some_iff] at hentry
  obtain ⟨⟨p, f⟩, hentry, rfl : p = c.predicate⟩ := hentry
  exact ⟨f, hentry⟩

theorem Call.run_sound {c : Call} (h : c.WellTyped catalog.predicates) :
    (c.run (catalog.answers s a)).Sound catalog s a
      (fun value => c.predicate.returns.contains value = true) := by
  obtain ⟨f, hentry⟩ := h.exists_entry
  have hanswer := Catalog.answers_of_entry hentry s a c.arguments
  cases hlegal : c.predicate.returns.contains (f s a c.arguments) with
  | true =>
    refine .finished (f s a c.arguments) ?_ hlegal ?_
    · rw [Call.run, hanswer, hlegal, if_pos rfl]
    · intro c' hc'
      rw [List.mem_singleton.1 hc']
      exact ⟨f, hentry, hlegal⟩
  | false =>
    refine .stopped _ [] c ?_ rfl (fun _ hb => absurd hb List.not_mem_nil) ⟨f, hentry, hlegal, rfl⟩
    rw [Call.run, hanswer, hlegal]
    rfl

/-- The run of a condition is sound. -/
theorem Condition.run_sound {condition : Condition} (h : condition.WellTyped catalog.predicates) :
    (condition.run (catalog.answers s a)).Sound catalog s a (fun _ => True) := by
  induction condition with
  | call id c =>
    obtain ⟨hc, hclass⟩ := h
    refine (Run.Sound.visit id).andThen fun _ _ => (Call.run_sound hc).andThen fun value hvalue => ?_
    obtain ⟨b, hb⟩ := Kind.bool?_of_contains hclass hvalue
    rw [asTruth, hb]
    exact .pure trivial
  | compare id c op literal =>
    obtain ⟨hc, hclass, hop, hliteral⟩ := h
    refine (Run.Sound.visit id).andThen fun _ _ => (Call.run_sound hc).andThen fun value hvalue => ?_
    obtain ⟨holds, hholds⟩ := Kind.compare_of_contains hclass hop hvalue hliteral
    rw [asComparison, hholds]
    exact .pure trivial
  | and id x y ihx ihy =>
    refine (Run.Sound.visit id).andThen fun _ _ => (ihx h.1).andThen fun first _ => ?_
    cases first with
    | true => exact ihy h.2
    | false => exact .pure trivial
  | or id x y ihx ihy =>
    refine (Run.Sound.visit id).andThen fun _ _ => (ihx h.1).andThen fun first _ => ?_
    cases first with
    | true => exact .pure trivial
    | false => exact ihy h.2
  | not id x ih =>
    exact (Run.Sound.visit id).andThen fun _ _ => (ih h).andThen fun inner _ => .pure trivial

theorem adjust_sound {range : Int} {b : Block} (hb : b.WellTyped catalog.predicates range)
    (total : Int) (hsmall : total.natAbs + range < 2 ^ (63 : Nat)) (holds : Bool) :
    Run.Sound catalog s a (fun value => (Int.natAbs value : Int) ≤ total.natAbs + range)
      (if holds then adjust b.id total b.delta else pure total) := by
  have hlo := hb.neg_le
  have hhi := hb.le
  cases holds with
  | false =>
    exact .pure (by omega)
  | true =>
    rw [if_pos rfl, adjust_of_small (by omega)]
    exact .pure (by omega)

/-- The run of blocks on top of a total is sound, as long as no total within reach is out of range:
every block moves the total by the greatest adjustment at most. -/
theorem scoreFrom_sound {range : Int} (hrange : 0 ≤ range) (blocks : List Block)
    (h : ∀ b ∈ blocks, b.WellTyped catalog.predicates range) (total : Int)
    (hsmall : total.natAbs + blocks.length * range < 2 ^ (63 : Nat)) :
    (scoreFrom (catalog.answers s a) total blocks).Sound catalog s a
      (fun value => (value.natAbs : Int) ≤ total.natAbs + blocks.length * range) := by
  induction blocks generalizing total with
  | nil =>
    refine .pure ?_
    rw [List.length_nil]
    omega
  | cons b rest ih =>
    have hb := h b List.mem_cons_self
    have hlength : ((b :: rest).length : Int) * range = rest.length * range + range := by
      rw [List.length_cons, Int.natCast_succ, Int.add_mul, Int.one_mul]
    have hnonneg : 0 ≤ (rest.length : Int) * range := Int.mul_nonneg (Int.natCast_nonneg _) hrange
    rw [hlength] at hsmall ⊢
    refine (Run.Sound.visit b.id).andThen fun _ _ => ?_
    refine (Condition.run_sound hb.condition).andThen fun holds _ => ?_
    have hadjust := adjust_sound (s := s) (a := a) hb total (by omega) holds
    have hrest : ∀ total' : Int, (total'.natAbs : Int) ≤ total.natAbs + range →
        (scoreFrom (catalog.answers s a) total' rest).Sound catalog s a
          (fun value => (value.natAbs : Int) ≤ total.natAbs + (rest.length * range + range)) := by
      intro total' htotal'
      refine (ih (fun b' hb' => h b' (List.mem_cons_of_mem _ hb')) total' (by omega)).mono ?_
      intro value hvalue
      omega
    cases holds with
    | true => exact hadjust.andThen hrest
    | false => exact hadjust.andThen hrest

end Runs

/-! ### Accepted scripts -/

namespace Generator

/-- The script comes from random words, from a tree, or from bytes. -/
inductive Accepts (g : Generator S A) (script : Script S A) : Prop
  | generated {σ : Type} {stream rest : Stream σ} :
    g.generate stream = .done script rest → Accepts g script
  | compiled {t : Tree} : g.compileTree t = .ok script → Accepts g script
  | loaded {bytes : List UInt8} : g.load bytes = .ok script → Accepts g script

namespace Accepts

variable {g : Generator S A} {script : Script S A}

/-- Every accepted script is the script of its tree. -/
theorem compileTree_eq (h : g.Accepts script) : g.compileTree script.tree = .ok script := by
  have hcompiled : ∀ t, g.compileTree t = .ok script → g.compileTree script.tree = .ok script := by
    intro t ht
    have hassemble := (compileTree_eq_ok_iff.1 ht).2
    rw [(Script.assemble_eq_ok_iff.1 hassemble).1]
    exact ht
  cases h with
  | generated hgenerate =>
    obtain ⟨_, _, hexpand, hassemble⟩ := generate_eq_done hgenerate
    have hgrown := Grammar.expand_spec hexpand
    have hlimits := Tree.checkLimits_eq_ok_iff.2 ⟨hgrown.levels_le, hgrown.after_le⟩
    exact compileTree_eq_ok_iff.2 ⟨hlimits, hassemble⟩
  | compiled hcompile => exact hcompiled _ hcompile
  | loaded hload =>
    obtain ⟨t, _, ht⟩ := load_eq_ok_iff.1 hload
    exact hcompiled t ht

theorem assemble_eq (h : g.Accepts script) : g.assemble script.tree = .ok script :=
  (compileTree_eq_ok_iff.1 h.compileTree_eq).2

theorem checkLimits_eq (h : g.Accepts script) :
    script.tree.checkLimits g.config.limits = .ok () :=
  (compileTree_eq_ok_iff.1 h.compileTree_eq).1

theorem catalog_eq (h : g.Accepts script) : script.catalog = g.catalog :=
  (Script.assemble_eq_ok_iff.1 h.assemble_eq).2.1

theorem wellTyped (h : g.Accepts script) :
    ∀ b ∈ script.blocks, b.WellTyped g.catalog.predicates g.grammar.scoreRange :=
  Tree.compile_wellTyped (Script.assemble_eq_ok_iff.1 h.assemble_eq).2.2.2

end Accepts

/-- So many blocks keep every total in range. -/
theorem Made.length_mul_range_lt {catalog : Catalog S A} {config : Config} {g : Generator S A}
    (h : Made catalog config g) {count : Nat} (hcount : count * 8 < 2 ^ (63 : Nat)) :
    0 ≤ g.grammar.scoreRange ∧ count * g.grammar.scoreRange < 2 ^ (63 : Nat) := by
  have hrange : g.grammar.scoreRange = config.scoreRange := h.built.scoreRange_eq
  have hone := h.built.one_le
  have hmax : config.scoreRange ≤ 8 := h.built.le_max
  have hle : (count : Int) * g.grammar.scoreRange ≤ count * 8 :=
    Int.mul_le_mul_of_nonneg_left (hrange ▸ hmax) (Int.natCast_nonneg _)
  exact ⟨by omega, by omega⟩

/-- The run that scores an accepted script is sound, and every block moves the score by the greatest
adjustment at most. -/
theorem Made.score_runs_soundly {catalog : Catalog S A} {config : Config} {g : Generator S A}
    (hmade : Made catalog config g) {script : Script S A} (h : g.Accepts script)
    (hblocks : script.blocks.length * 8 < 2 ^ (63 : Nat)) (s : S) (a : A) :
    (script.score s a).Sound catalog s a
      (fun value => (value.natAbs : Int) ≤ script.blocks.length * g.grammar.scoreRange) := by
  obtain ⟨hrange, hlength⟩ := hmade.length_mul_range_lt hblocks
  have hcatalog : script.catalog = catalog := h.catalog_eq.trans hmade.catalog_eq
  have hwellTyped : ∀ b ∈ script.blocks, b.WellTyped catalog.predicates g.grammar.scoreRange :=
    hmade.catalog_eq ▸ h.wellTyped
  have hrun := scoreFrom_sound (s := s) (a := a) hrange script.blocks hwellTyped 0 (by omega)
  rw [Script.score, hcatalog, scoreBlocks]
  refine hrun.mono ?_
  intro value hvalue
  omega

/-- **Scripts do not go wrong.**  The score of every accepted script is one whose run is sound: it is
an error only if a predicate answers outside its declared kind, and then it reports the first such
answer; otherwise every block has moved it by the greatest adjustment at most.  A trace comes to the
same. -/
theorem score_sound {catalog : Catalog S A} {config : Config} {g : Generator S A}
    (hmake : make catalog config = .ok g) {script : Script S A} (h : g.Accepts script)
    (hblocks : script.blocks.length * 8 < 2 ^ (63 : Nat)) (s : S) (a : A) :
    (script.score s a).Sound catalog s a
      (fun value => (value.natAbs : Int) ≤ script.blocks.length * g.grammar.scoreRange) ∧
    (script.trace s a).Sound catalog s a
      (fun value => (value.1.natAbs : Int) ≤ script.blocks.length * g.grammar.scoreRange) := by
  have hscore := (make_eq_ok hmake).score_runs_soundly h hblocks s a
  refine ⟨hscore, ?_⟩
  cases hscore with
  | finished value hresult hvalue hanswered =>
    refine .finished (value, CallLog.ofVisits (script.score s a).visited) ?_ hvalue hanswered
    rw [Script.trace, hresult]
    rfl
  | stopped error before c hresult hcalls hbefore hc =>
    refine .stopped error before c ?_ hcalls hbefore hc
    rw [Script.trace, hresult]
    rfl

end Generator

/-- A script of two blocks: a negated conjunction whose second part is never asked for, with a
number compared behind wrappers, and a call that adds. -/
def Tree.wrapped : Tree :=
  let stab := node 0 (.rule (.predicate 0))
    [node 0 (.terminal (.name "stab")) [], node 0 (.terminal .action) []]
  let boost := node 0 (.rule (.predicate 1))
    [node 0 (.terminal (.name "boost")) [], node 0 (.terminal .state) [],
      node 0 (.rule (.literal .baseStat)) [node 0 (.terminal (.value (.stat .attack))) []],
      node 0 (.rule .numericComparator) [node 0 (.terminal (.op .less)) []],
      node 0 (.rule .negation) [node 0 (.terminal (.value (.int 3))) []]]
  node 0 (.rule .start)
    [node 0 (.rule .block)
      [node 0 (.rule .negation) [node 0 (.rule .conjunction)
        [node 0 (.rule .negation) [stab], node 0 (.rule .condition) [boost]]],
        node 0 (.rule .body) [node 0 (.terminal (.value (.int (-2)))) []]],
      node 0 (.rule .block)
        [boost, node 0 (.rule .adjustment) [node 0 (.terminal (.value (.int 5))) []]]]

/-- The small catalog with another answer: for one of two actions the number is not what it may be. -/
def Catalog.wayward : Catalog Unit Bool :=
  ⟨[(⟨"stab", [.action], .bool⟩, fun _ _ _ => .bool true),
    (⟨"boost", [.state, .choice .baseStat], .statModifier⟩,
      fun _ a _ => if a then .int 2 else .int 7)]⟩

/-- The calls of the script with wrappers: the second predicate is asked after the first one. -/
def Tree.wrappedCalls : List Call :=
  [⟨0, ⟨"stab", [.action], .bool⟩, []⟩,
    ⟨1, ⟨"boost", [.state, .choice .baseStat], .statModifier⟩, [.stat .attack]⟩]

namespace Generator

/-- The script of the small words is accepted and comes to a score.  The script with wrappers comes to a
score for one action, and for the other one to an error that reports the second answer. -/
theorem score_sound_small :
    (∃ g script, make Catalog.small .default = .ok g ∧ g.Accepts script ∧
      script.blocks.length = 1 ∧ (script.score () ()).Sound Catalog.small () ()
        (fun value => (value.natAbs : Int) ≤ script.blocks.length * g.grammar.scoreRange) ∧
      (script.score () ()).result = .ok 2) ∧
    ∃ g script, make Catalog.wayward .default = .ok g ∧ g.Accepts script ∧
      script.blocks.length = 2 ∧
      (∀ a, (script.score () a).Sound Catalog.wayward () a
        (fun value => (value.natAbs : Int) ≤ script.blocks.length * g.grammar.scoreRange)) ∧
      (script.score () true).result = .ok 3 ∧ (script.score () false).calls = Tree.wrappedCalls ∧
      (script.score () false).result = .error (.illegalReturn "boost" .statModifier (.int 7)) := by
  constructor
  · obtain ⟨g, script, rest, hg, hrun, htest⟩ :=
      exists_generated Catalog.small .default (.start WordSource.small 0 100)
        (fun _ script _ => script.blocks.length == 1 &&
          (script.score () ()).result.toOption.any (· == 2)) (by decide +kernel)
    rw [Bool.and_eq_true, beq_iff_eq] at htest
    obtain ⟨hlength, hresult⟩ := htest
    have hsmall : script.blocks.length * 8 < 2 ^ (63 : Nat) := by rw [hlength]; decide
    exact ⟨g, script, hg, .generated hrun, hlength,
      (score_sound hg (.generated hrun) hsmall () ()).1, Result.eq_ok_of_any hresult⟩
  · obtain ⟨g, script, hg, hscript, htest⟩ :=
      exists_script Catalog.wayward .wrapped
        (fun script => script.blocks.length == 2 &&
          (script.score () true).result.toOption.any (· == 3) &&
          (script.score () false).calls == Tree.wrappedCalls &&
          (script.score () false).result.toOption.isNone) (by decide +kernel)
    rw [Bool.and_eq_true, Bool.and_eq_true, Bool.and_eq_true, beq_iff_eq, beq_iff_eq,
      Option.isNone_iff_eq_none] at htest
    obtain ⟨⟨⟨hlength, hresult⟩, hcalls⟩, hnone⟩ := htest
    have hsmall : script.blocks.length * 8 < 2 ^ (63 : Nat) := by rw [hlength]; decide
    have hsound := fun a => (score_sound hg (.compiled hscript) hsmall () a).1
    refine ⟨g, script, hg, .compiled hscript, hlength, hsound, Result.eq_ok_of_any hresult, hcalls, ?_⟩
    -- a sound run without a result reports its last call
    cases hsound false with
    | finished value hvalue _ _ =>
      rw [hvalue] at hnone
      cases hnone
    | stopped error before c herror hcalls' _ hc =>
      obtain ⟨_, hlast⟩ := List.append_inj' (hcalls'.symm.trans hcalls :
        before ++ [c] = [_] ++ [_]) rfl
      obtain rfl := List.singleton_inj.1 hlast
      obtain ⟨f, hentry, _, rfl⟩ := hc
      obtain ⟨_, rfl⟩ := Prod.mk.inj (Option.some.inj hentry)
      exact herror

end Generator

end ScoreScript
