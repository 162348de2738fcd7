import ScoreScript.Proofs.Script.Plain
import ScoreScript.Proofs.Script.Texts
import ScoreScript.Proofs.Script.Typing
import ScoreScript.Proofs.Tree.Parts

/-!
# What is shown and what runs

Text and blocks are read off a tree in two walks that do not look through the same nodes.  The text
of a script is that of its blocks exactly when the tree is plain; so it is for generated scripts,
and need not be for trees from elsewhere.

* `Tree.Rendered`, `Tree.rendered_of_render` — what the text of a node is made of;
* `Tree.tracks_literal`, `Tree.tracks_comparator`, `Tree.tracks_integer` — the text of a chain;
* `Tree.tracks_call`, `Tree.tracks_condition`, `Tree.tracks_block` — the texts above the chains;
* `Generator.source_eq_iff_isPlain` — the text of a script;
* `Generator.Made.source_of_generate` — the text of a generated script.
-/

namespace ScoreScript

namespace Tree

/-! ### Nodes -/

/-- What the text of a node with a rule is made of. -/
inductive Rendered : Rule → List Tree → String → Prop
  | block {a b : Tree} {s t : String} :
    a.render = .ok s → b.render = .ok t → Rendered .block [a, b] (blockText s t)
  | conjunction {a b : Tree} {s t : String} :
    a.render = .ok s → b.render = .ok t →
    Rendered .conjunction [a, b] ("(" ++ s ++ " and " ++ t ++ ")")
  | disjunction {a b : Tree} {s t : String} :
    a.render = .ok s → b.render = .ok t →
    Rendered .disjunction [a, b] ("(" ++ s ++ " or " ++ t ++ ")")
  | negation {a : Tree} {s : String} :
    a.render = .ok s → Rendered .negation [a] ("(not " ++ s ++ ")")
  | adjustment {amount : Tree} {delta : Int} :
    amount.integer? = some delta → Rendered .adjustment [amount] (adjustmentText delta)
  | predicate {i : Nat} {id : NodeId} {name : String} {below rest : List Tree}
    {texts : List String} :
    renderAll rest = .ok texts →
    Rendered (.predicate i) (node id (.terminal (.name name)) below :: rest)
      (layoutCall name (splitComparison rest).2.isSome texts)
  | transparent {r : Rule} {children : List Tree} {texts : List String} :
    r.isTransparent = true → renderAll children = .ok texts →
    Rendered r children (String.join texts)

theorem render_transparent {r : Rule} (h : r.isTransparent = true) (id : NodeId) (ts : List Tree) :
    (node id (.rule r) ts).render = do
      let texts ← renderAll ts
      return String.join texts := by
  cases r with
  | block | conjunction | disjunction | negation | adjustment | predicate i => cases h
  | _ => rw [render] <;> simp

theorem rendered_of_render {id : NodeId} {r : Rule} {children : List Tree} {s : String}
    (hs : (node id (.rule r) children).render = .ok s) : Rendered r children s := by
  cases hr : r.isTransparent with
  | true =>
    rw [render_transparent hr] at hs
    obtain ⟨texts, htexts, hs⟩ := Result.bind_eq_ok_iff.1 hs
    rw [← Result.pure_eq_ok_iff.1 hs]
    exact .transparent hr htexts
  | false =>
    cases r with
    | block | conjunction | disjunction =>
      rcases children with _ | ⟨a, _ | ⟨b, _ | ⟨c, more⟩⟩⟩
      case cons.cons.nil =>
        rw [render] at hs
        obtain ⟨u, hu, hs⟩ := Result.bind_eq_ok_iff.1 hs
        obtain ⟨v, hv, hs⟩ := Result.bind_eq_ok_iff.1 hs
        rw [← Result.pure_eq_ok_iff.1 hs]
        constructor <;> assumption
      all_goals cases hs
    | negation =>
      rcases children with _ | ⟨a, _ | ⟨b, more⟩⟩
      case cons.nil =>
        rw [render] at hs
        obtain ⟨inner, hinner, hs⟩ := Result.bind_eq_ok_iff.1 hs
        rw [← Result.pure_eq_ok_iff.1 hs]
        exact .negation hinner
      all_goals cases hs
    | adjustment =>
      rcases children with _ | ⟨amount, _ | ⟨b, more⟩⟩
      case cons.nil =>
        rw [render] at hs
        split at hs
        · rename_i delta hdelta
          rw [← Except.ok.inj hs]
          exact .adjustment hdelta
        · cases hs
      all_goals cases hs
    | predicate i =>
      rcases children with _ | ⟨⟨nameId, label | term, below⟩, rest⟩
      case cons.terminal =>
        cases term with
        | name text =>
          rw [render] at hs
          obtain ⟨texts, htexts, hs⟩ := Result.bind_eq_ok_iff.1 hs
          rw [← Result.pure_eq_ok_iff.1 hs]
          exact .predicate htexts
        | _ => cases hs
      all_goals cases hs
    | _ => cases hr

/-! ### Chains -/

theorem render_only {r : Rule} (h : r.isTransparent = true) (id : NodeId) (t : Tree) :
    (node id (.rule r) [t]).render = t.render := by
  rw [render_transparent h, renderAll, renderAll]
  cases t.render with
  | error e => rfl
  | ok s =>
    show Except.ok (String.join [s]) = .ok s
    rw [String.join_cons, String.join_nil, String.append_empty]

/-- The rules that are shown on a chain: a negation, and an adjustment of an integer. -/
theorem render_only_shown {r : Rule} (h : r.isTransparent = false) {id : NodeId} {t : Tree}
    {s : String} (hs : (node id (.rule r) [t]).render = .ok s) :
    (r = .negation ∧ ∃ inner, t.render = .ok inner ∧ s = "(not " ++ inner ++ ")") ∨
      (r = .adjustment ∧ ∃ delta, t.integer? = some delta ∧ s = adjustmentText delta) ∨
      ∃ name, t.terminal? = some (.name name) := by
  cases rendered_of_render hs with
  | negation hinner => exact Or.inl ⟨rfl, _, hinner, rfl⟩
  | adjustment hdelta => exact Or.inr (Or.inl ⟨rfl, _, hdelta, rfl⟩)
  | predicate _ => exact Or.inr (Or.inr ⟨_, rfl⟩)
  | transparent hr =>
    rw [h] at hr
    cases hr

theorem head?_adjustmentText (delta : Int) : (adjustmentText delta).toList.head? = some 's' := by
  unfold adjustmentText
  split
  · rw [String.toList_append]
    rfl
  · rw [String.toList_append]
    rfl

theorem head?_notText (inner : String) : ("(not " ++ inner ++ ")").toList.head? = some '(' := by
  rw [String.toList_append, String.toList_append]
  rfl

theorem literal?_of_terminal? {t : Tree} {name : String} (h : t.terminal? = some (.name name)) :
    t.literal? = none ∧ t.comparator? = none := by
  obtain ⟨id, label, children⟩ := t
  cases label with
  | rule r => cases h
  | terminal term =>
    obtain rfl := Option.some.inj h
    exact ⟨by rw [literal?]; simp, by rw [comparator?]; simp⟩

theorem comparator?_of_literal? {t : Tree} {value : Literal} (h : t.literal? = some value) :
    t.comparator? = none := by
  fun_induction literal? t with
  | case1 id literal children => rw [comparator?]; simp
  | case2 => cases h
  | case3 id r only ih => rw [comparator?, ih h]
  | case4 => cases h

theorem tracks_terminal {t : Tree} {term : Terminal} {s : String} (h : t.terminal? = some term)
    (hs : t.render = .ok s) : Tracks t.isBare s term.text := by
  obtain ⟨id, label, children⟩ := t
  cases label with
  | rule r => cases h
  | terminal term' =>
    obtain rfl := Option.some.inj h
    rw [render] at hs
    rw [← Except.ok.inj hs, isBare]
    exact .same _

/-- The text of a chain that leads to a literal. -/
theorem tracks_literal {t : Tree} {value : Literal} {s : String} (h : t.literal? = some value)
    (hs : t.render = .ok s) : Tracks t.isBare s value.text := by
  fun_induction literal? t generalizing s with
  | case1 id literal children =>
    rw [render] at hs
    rw [← Except.ok.inj hs, ← Option.some.inj h, isBare]
    exact .same _
  | case2 => cases h
  | case3 id r only ih =>
    rw [isBare]
    cases hr : r.isTransparent with
    | true =>
      rw [render_only hr] at hs
      exact ih h hs
    | false =>
      obtain ⟨c, hc, hparen⟩ := value.head?_text
      rcases render_only_shown hr hs with ⟨_, inner, _, rfl⟩ | ⟨_, delta, hdelta, rfl⟩ | ⟨name, hname⟩
      · exact .of_head (head?_notText inner) hc hparen.symm
      · -- an adjustment is shown of integers alone, and these do not begin with a letter
        obtain ⟨n, hn, _⟩ := integer?_eq_some hdelta
        rw [h] at hn
        obtain rfl := Option.some.inj hn
        obtain ⟨c, hc, _, hs⟩ := head?_repr n.toInt
        exact .of_head (head?_adjustmentText delta) hc hs.symm
      · rw [(literal?_of_terminal? hname).1] at h
        cases h
  | case4 => cases h

/-- The text of a chain that leads to an operator. -/
theorem tracks_comparator {t : Tree} {op : Comparator} {s : String} (h : t.comparator? = some op)
    (hs : t.render = .ok s) : Tracks t.isBare s op.text := by
  fun_induction comparator? t generalizing s with
  | case1 id op' children =>
    rw [render] at hs
    rw [← Except.ok.inj hs, ← Option.some.inj h, isBare]
    exact .same _
  | case2 => cases h
  | case3 id r only ih =>
    rw [isBare]
    cases hr : r.isTransparent with
    | true =>
      rw [render_only hr] at hs
      exact ih h hs
    | false =>
      obtain ⟨c, hc, hparen⟩ := op.head?_text
      rcases render_only_shown hr hs with ⟨_, inner, _, rfl⟩ | ⟨_, delta, hdelta, rfl⟩ | ⟨name, hname⟩
      · exact .of_head (head?_notText inner) hc hparen.symm
      · obtain ⟨n, hn, _⟩ := integer?_eq_some hdelta
        rw [comparator?_of_literal? hn] at h
        cases h
      · rw [(literal?_of_terminal? hname).2] at h
        cases h
  | case4 => cases h

/-- The text of a chain that leads to an integer, where an adjustment is expected. -/
theorem tracks_integer {t : Tree} {value : Int64} {s : String} (h : t.literal? = some (.int value))
    (hs : t.render = .ok s) : Tracks t.isBareAdjustment s (adjustmentText value.toInt) := by
  fun_induction literal? t generalizing s with
  | case1 id literal children =>
    obtain rfl := Option.some.inj h
    rw [render] at hs
    rw [← Except.ok.inj hs]
    obtain ⟨c, hc, _, hne⟩ := head?_repr value.toInt
    exact .of_head hc (head?_adjustmentText _) hne
  | case2 => cases h
  | case3 id r only ih =>
    cases hr : r.isTransparent with
    | true =>
      rw [render_only hr] at hs
      rw [isBareAdjustment_only hr]
      exact ih h hs
    | false =>
      rcases render_only_shown hr hs with
        ⟨rfl, inner, _, rfl⟩ | ⟨rfl, delta, hdelta, rfl⟩ | ⟨name, hname⟩
      · have hbare : (node id (.rule .negation) [only]).isBareAdjustment = false := by
          rw [isBareAdjustment, hr, Bool.false_and]
          intro h'
          cases h'
        rw [hbare]
        exact .of_head (head?_notText inner) (head?_adjustmentText _) (by decide)
      · rw [integer?_of_literal? h] at hdelta
        rw [isBareAdjustment, Option.some.inj hdelta]
        exact .same _
      · rw [(literal?_of_terminal? hname).1] at h
        cases h
  | case4 => cases h

/-! ### Calls -/

/-- The texts of the arguments of a call. -/
theorem tracks_arguments {params : List Param} {ts : List Tree} {values : List Literal}
    {texts : List String} (h : CompiledArguments params ts values) (hs : renderAll ts = .ok texts) :
    TracksAll (ts.all isBare) texts (argumentTexts params values) := by
  induction h generalizing texts with
  | nil =>
    rw [renderAll] at hs
    rw [← Except.ok.inj hs, argumentTexts]
    · exact .nil
    all_goals simp
  | state hterminal _ ih | action hterminal _ ih =>
    rw [renderAll] at hs
    obtain ⟨text, htext, hs⟩ := Result.bind_eq_ok_iff.1 hs
    obtain ⟨texts', htexts, hs⟩ := Result.bind_eq_ok_iff.1 hs
    rw [← Result.pure_eq_ok_iff.1 hs, List.all_cons, argumentTexts]
    exact .cons (tracks_terminal hterminal htext) (ih htexts)
  | choice hvalue _ _ ih =>
    rw [renderAll] at hs
    obtain ⟨text, htext, hs⟩ := Result.bind_eq_ok_iff.1 hs
    obtain ⟨texts', htexts, hs⟩ := Result.bind_eq_ok_iff.1 hs
    rw [← Result.pure_eq_ok_iff.1 hs, List.all_cons, argumentTexts]
    exact .cons (tracks_literal hvalue htext) (ih htexts)

end Tree

theorem splitLastTwo_append (texts : List String) (op value : String) :
    splitLastTwo (texts ++ [op, value]) = (texts, some (op, value)) := by
  induction texts with
  | nil => rfl
  | cons text rest ih =>
    rw [List.cons_append, splitLastTwo, ih]
    · intro h
      cases rest <;> cases h
    · intro y h
      have hlen := congrArg List.length h
      rw [List.length_append] at hlen
      exact absurd hlen (by simp)

theorem tracks_callText {p : Bool} {texts texts' : List String} (name : String)
    (h : TracksAll p texts texts') : Tracks p (callText name texts) (callText name texts') :=
  ((h.intercalate ", ").prepend (name ++ "(")).extend ")"

theorem tracks_comparisonText {p q r : Bool} {call op value call' op' value' : String}
    (hcall : Tracks p call call') (hop : Tracks q op op') (hvalue : Tracks r value value') :
    Tracks (p && (q && r)) (comparisonText call op value) (comparisonText call' op' value') := by
  rw [← Bool.and_assoc]
  exact (((((hcall.prepend "(").extend " ").append hop).extend " ").append hvalue).extend ")"

namespace Tree

theorem renderAll_append_two {ts : List Tree} {op value : Tree} {texts : List String}
    (hs : renderAll (ts ++ [op, value]) = .ok texts) :
    ∃ before opText valueText, renderAll ts = .ok before ∧ op.render = .ok opText ∧
      value.render = .ok valueText ∧ texts = before ++ [opText, valueText] := by
  induction ts generalizing texts with
  | nil =>
    rw [List.nil_append, renderAll] at hs
    obtain ⟨opText, hop, hs⟩ := Result.bind_eq_ok_iff.1 hs
    obtain ⟨more, hmore, hs⟩ := Result.bind_eq_ok_iff.1 hs
    rw [renderAll] at hmore
    obtain ⟨valueText, hvalue, hmore⟩ := Result.bind_eq_ok_iff.1 hmore
    obtain ⟨none, hnone, hmore⟩ := Result.bind_eq_ok_iff.1 hmore
    rw [renderAll] at hnone
    obtain rfl := Except.ok.inj hnone
    refine ⟨[], opText, valueText, rfl, hop, hvalue, ?_⟩
    rw [← Result.pure_eq_ok_iff.1 hs, ← Result.pure_eq_ok_iff.1 hmore]
    rfl
  | cons t rest ih =>
    rw [List.cons_append, renderAll] at hs
    obtain ⟨text, htext, hs⟩ := Result.bind_eq_ok_iff.1 hs
    obtain ⟨more, hmore, hs⟩ := Result.bind_eq_ok_iff.1 hs
    obtain ⟨before, opText, valueText, hbefore, hop, hvalue, rfl⟩ := ih hmore
    refine ⟨text :: before, opText, valueText, ?_, hop, hvalue, ?_⟩
    · rw [renderAll, htext, hbefore]
      rfl
    · rw [← Result.pure_eq_ok_iff.1 hs]
      rfl

/-- The text of a call, bare or compared. -/
theorem tracks_call {id : NodeId} {target : Nat} {p : Predicate} {rest : List Tree}
    {condition : Condition} {texts : List String}
    (h : CompiledCall id target p (splitComparison rest).1 (splitComparison rest).2 condition)
    (hs : renderAll rest = .ok texts) :
    Tracks (rest.all isBare) (layoutCall p.name (splitComparison rest).2.isSome texts)
      condition.text := by
  -- the call compiles from the parts, while its text is made of the whole list
  have hparts := splitComparison_eq rest
  generalize (splitComparison rest).1 = arguments at h hparts
  generalize (splitComparison rest).2 = comparison at h hparts
  subst hparts
  cases h with
  | bare hlen hvalues _ =>
    rw [List.append_nil] at hs ⊢
    exact tracks_callText p.name (tracks_arguments (compileArguments_eq_ok hlen hvalues) hs)
  | @compared values opNode valueNode op value hlen hvalues _ hop _ hvalue _ =>
    obtain ⟨before, opText, valueText, hbefore, hopText, hvalueText, rfl⟩ :=
      renderAll_append_two hs
    have hlayout : layoutCall p.name true (before ++ [opText, valueText]) =
        comparisonText (callText p.name before) opText valueText := by
      rw [layoutCall, if_pos rfl, splitLastTwo_append]
    rw [Option.isSome_some, hlayout, List.all_append, List.all_cons, List.all_cons, List.all_nil,
      Bool.and_true]
    have harguments := tracks_arguments (compileArguments_eq_ok hlen hvalues) hbefore
    exact tracks_comparisonText (tracks_callText p.name harguments)
      (tracks_comparator hop hopText) (tracks_literal hvalue hvalueText)

/-! ### Conditions -/

/-- The text of a condition. -/
theorem tracks_condition {ps : List Predicate} {t : Tree} {condition : Condition} {s : String}
    (h : t.compileCondition ps = .ok condition) (hs : t.render = .ok s) :
    Tracks t.hasBareCalls s condition.text := by
  fun_induction compileCondition ps t generalizing condition s with
  | case1 => cases h
  | case2 id t ih | case3 id t ih | case4 id t ih =>
    rw [render_only rfl] at hs
    rw [hasBareCalls_only (by intro i hi; cases hi)]
    exact ih h hs
  | case5 id a b iha ihb | case6 id a b iha ihb =>
    obtain ⟨x, hx, h⟩ := Result.bind_eq_ok_iff.1 h
    obtain ⟨y, hy, h⟩ := Result.bind_eq_ok_iff.1 h
    rw [render] at hs
    obtain ⟨u, hu, hs⟩ := Result.bind_eq_ok_iff.1 hs
    obtain ⟨v, hv, hs⟩ := Result.bind_eq_ok_iff.1 hs
    rw [← Result.pure_eq_ok_iff.1 h, ← Result.pure_eq_ok_iff.1 hs,
      hasBareCalls_both (by intro i hi; cases hi)]
    exact ((((iha hx hu).prepend "(").extend _).append (ihb hy hv)).extend ")"
  | case7 id a ih =>
    obtain ⟨x, hx, h⟩ := Result.bind_eq_ok_iff.1 h
    rw [render] at hs
    obtain ⟨u, hu, hs⟩ := Result.bind_eq_ok_iff.1 hs
    rw [← Result.pure_eq_ok_iff.1 h, ← Result.pure_eq_ok_iff.1 hs,
      hasBareCalls_only (by intro i hi; cases hi)]
    exact ((ih hx hu).prepend "(not ").extend ")"
  | case8 => cases h
  | case9 id i nameId name below rest target p hfound arguments comparison hsplit =>
    rw [render] at hs
    obtain ⟨texts, htexts, hs⟩ := Result.bind_eq_ok_iff.1 hs
    have hname : p.name = name := (findPredicate_eq_some hfound).2.2
    have hcall := compileCall_eq_ok h
    have harguments : (splitComparison rest).1 = arguments := congrArg Prod.fst hsplit
    have hcomparison : (splitComparison rest).2 = comparison := congrArg Prod.snd hsplit
    rw [← harguments, ← hcomparison] at hcall
    rw [← Result.pure_eq_ok_iff.1 hs, hasBareCalls, ← hname]
    exact tracks_call hcall htexts
  | case10 => cases h

/-! ### Blocks -/

/-- The text of a block. -/
theorem tracks_block {ps : List Predicate} {range : Int} {t : Tree} {block : Block} {s : String}
    (h : t.compileBlock ps range = .ok block) (hs : t.render = .ok s) :
    Tracks t.isPlainBlock s block.text := by
  unfold compileBlock at h
  split at h
  · rename_i id condition body
    obtain ⟨c, hc, h⟩ := Result.bind_eq_ok_iff.1 h
    obtain ⟨delta, hdelta, h⟩ := Result.bind_eq_ok_iff.1 h
    rw [render] at hs
    obtain ⟨u, hu, hs⟩ := Result.bind_eq_ok_iff.1 hs
    obtain ⟨v, hv, hs⟩ := Result.bind_eq_ok_iff.1 hs
    obtain ⟨value, hvalue, rfl⟩ := integer?_eq_some (compileDelta_eq_ok_iff.1 hdelta).1
    rw [← Result.pure_eq_ok_iff.1 h, ← Result.pure_eq_ok_iff.1 hs, isPlainBlock]
    have hcondition := tracks_condition hc hu
    have hbody := tracks_integer hvalue hv
    exact (((hcondition.prepend "if (").extend "): ").append hbody).extend "\n"
  · cases h

/-- The texts of a list of blocks. -/
theorem tracks_blocks {ps : List Predicate} {range : Int} {ts : List Tree} {blocks : List Block}
    {texts : List String} (h : ts.mapM (compileBlock ps range) = .ok blocks)
    (hs : renderAll ts = .ok texts) :
    TracksAll (ts.all isPlainBlock) texts (blocks.map Block.text) := by
  induction ts generalizing blocks texts with
  | nil =>
    cases Result.mapM_eq_ok_iff.1 h
    cases renderAll_eq_ok_iff.1 hs
    exact .nil
  | cons t rest ih =>
    cases Result.mapM_eq_ok_iff.1 h with
    | cons hblock hblocks =>
      cases renderAll_eq_ok_iff.1 hs with
      | cons htext htexts =>
        have hrest := ih (Result.mapM_eq_ok_iff.2 hblocks) (renderAll_eq_ok_iff.2 htexts)
        exact .cons (tracks_block hblock htext) hrest

/-- The text of a tree that compiles. -/
theorem tracks_compile {ps : List Predicate} {range : Int} {t : Tree} {blocks : List Block}
    {s : String} (h : t.compile ps range = .ok blocks) (hs : t.render = .ok s) :
    Tracks t.isPlain s (String.join (blocks.map Block.text)) := by
  unfold compile at h
  split at h
  · rename_i id ts
    rw [render] at hs
    · obtain ⟨texts, htexts, hs⟩ := Result.bind_eq_ok_iff.1 hs
      rw [← Result.pure_eq_ok_iff.1 hs, isPlain]
      exact (tracks_blocks h htexts).join
    all_goals simp
  · obtain ⟨block, hblock, h⟩ := Result.bind_eq_ok_iff.1 h
    have htext := tracks_block hblock hs
    rw [← Result.pure_eq_ok_iff.1 h, List.map_singleton, String.join_cons, String.join_nil,
      String.append_empty, isPlain]
    · exact htext
    · simp
  · cases h
  · cases h

end Tree

/-! ### Scripts -/

namespace Generator

variable {S A σ : Type}

/-- **What is shown is what runs, on plain trees and no others.**  The text of a script is that of
its blocks, line by line, exactly when nothing is shown on the chains that the compiler looks
through but the adjustment of each block. -/
theorem source_eq_iff_isPlain {g : Generator S A} {t : Tree} {script : Script S A}
    (h : g.compileTree t = .ok script) :
    script.source = String.join (script.blocks.map Block.text) ↔ t.isPlain = true := by
  have hassemble := (compileTree_eq_ok_iff.1 h).2
  obtain ⟨_, _, hsource, hblocks⟩ := Script.assemble_eq_ok_iff.1 hassemble
  exact (Tree.tracks_compile hblocks hsource).eq_iff

end Generator

/-- A script of one block that calls the first predicate of the small catalog, with a given body. -/
def Tree.small (body : Tree) : Tree :=
  node 0 (.rule .start) [node 1 (.rule .block)
    [node 2 (.rule (.predicate 0))
      [node 3 (.terminal (.name "stab")) [], node 4 (.terminal .action) []], body]]

/-- A score of three that is not shown as an adjustment. -/
def Tree.three : Tree := node 5 (.terminal (.value (.int 3))) []

namespace Generator

/-- A body that shows its adjustment makes a plain tree, and its block is shown. -/
theorem source_eq_iff_isPlain_small :
    ∃ g script, make Catalog.small .default = .ok g ∧
      g.compileTree (.small (.node 6 (.rule .adjustment) [.three])) = .ok script ∧
      script.source = String.join (script.blocks.map Block.text) ∧
      script.source = "if (stab(action)): score += 3\n" := by
  obtain ⟨g, script, hg, hscript, hsource⟩ :=
    exists_script Catalog.small (.small (.node 6 (.rule .adjustment) [.three]))
      (fun script => script.source == "if (stab(action)): score += 3\n") (by decide +kernel)
  exact ⟨g, script, hg, hscript, (source_eq_iff_isPlain hscript).2 (by decide +kernel),
    beq_iff_eq.1 hsource⟩

/-- A score that stands for the body itself is executed, but not shown as an adjustment. -/
theorem source_ne_small :
    ∃ g script, make Catalog.small .default = .ok g ∧ g.compileTree (.small .three) = .ok script ∧
      script.source = "if (stab(action)): 3\n" ∧
      String.join (script.blocks.map Block.text) = "if (stab(action)): score += 3\n" ∧
      script.source ≠ String.join (script.blocks.map Block.text) := by
  obtain ⟨g, script, hg, hscript, htest⟩ :=
    exists_script Catalog.small (.small .three)
      (fun script => script.source == "if (stab(action)): 3\n" &&
        String.join (script.blocks.map Block.text) == "if (stab(action)): score += 3\n")
      (by decide +kernel)
  rw [Bool.and_eq_true, beq_iff_eq, beq_iff_eq] at htest
  obtain ⟨hsource, hblocks⟩ := htest
  refine ⟨g, script, hg, hscript, hsource, hblocks, ?_⟩
  rw [hsource, hblocks]
  decide

/-- Generated scripts show what they run. -/
theorem Made.source_of_generate {catalog : Catalog S A} {config : Config} {g : Generator S A}
    (h : Made catalog config g) {stream rest : Stream σ} {script : Script S A}
    (hgenerate : g.generate stream = .done script rest) :
    script.source = String.join (script.blocks.map Block.text) := by
  have hplain := h.isPlain_of_generate hgenerate
  obtain ⟨_, _, _, hassemble⟩ := generate_eq_done hgenerate
  obtain ⟨_, _, hsource, hblocks⟩ := Script.assemble_eq_ok_iff.1 hassemble
  exact (Tree.tracks_compile hblocks hsource).eq_iff.2 hplain

end Generator

end ScoreScript
