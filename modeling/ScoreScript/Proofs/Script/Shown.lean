import ScoreScript.Proofs.Script.Display

/-!
# Texts that show a script

The compiler looks for literals and operators through chains of only children, on which negations
and adjustments are shown.  So a compiled part may stand in a text in several ways.  Here are all of
them.

* `Literal.Shows`, `Comparator.Shows` — the texts of chains;
* `ArgumentsShow`, `Call.Shows`, `Condition.Shows`, `Block.Shows` — the texts above the chains, with
  what the compiler checks about them;
* `Tree.shows_compile` — the text of a tree that compiles shows its blocks.
-/

namespace ScoreScript

/-! ### Texts of compiled parts -/

/-- A literal stands for itself, an integer also for the adjustment by it, and both may be negated
any number of times. -/
inductive Literal.Shows : Literal → String → Prop
  | text (v : Literal) : Shows v v.text
  | adjustment (n : Int64) : Shows (.int n) (adjustmentText n.toInt)
  | negated {v : Literal} {s : String} : Shows v s → Shows v ("(not " ++ s ++ ")")

/-- An operator stands for itself and may be negated any number of times. -/
inductive Comparator.Shows : Comparator → String → Prop
  | text (op : Comparator) : Shows op op.text
  | negated {op : Comparator} {s : String} : Shows op s → Shows op ("(not " ++ s ++ ")")

/-- One text for each parameter; those for choices show legal literals. -/
inductive ArgumentsShow : List Param → List Literal → List String → Prop
  | nil : ArgumentsShow [] [] []
  | state {params : List Param} {values : List Literal} {texts : List String} :
    ArgumentsShow params values texts →
    ArgumentsShow (.state :: params) values (Terminal.state.text :: texts)
  | action {params : List Param} {values : List Literal} {texts : List String} :
    ArgumentsShow params values texts →
    ArgumentsShow (.action :: params) values (Terminal.action.text :: texts)
  | choice {kind : Kind} {params : List Param} {value : Literal} {values : List Literal}
    {text : String} {texts : List String} :
    kind.contains value = true → value.Shows text → ArgumentsShow params values texts →
    ArgumentsShow (.choice kind :: params) (value :: values) (text :: texts)

/-- The predicate of a call is the one that is found under its name. -/
inductive Call.Shows (ps : List Predicate) : Call → String → Prop
  | named {target : Nat} {p : Predicate} {values : List Literal} {texts : List String} :
    findPredicate p.name 0 ps = some (target, p) → ArgumentsShow p.params values texts →
    Shows ps ⟨target, p, values⟩ (callText p.name texts)

/-- Truth values stand alone, other results are compared with a literal of their kind. -/
inductive Condition.Shows (ps : List Predicate) : Condition → String → Prop
  | call (id : NodeId) {c : Call} {s : String} :
    c.Shows ps s → c.predicate.returns.kindClass = .boolean → Shows ps (.call id c) s
  | compare (id : NodeId) {c : Call} {op : Comparator} {value : Literal} {s opText text : String} :
    c.Shows ps s → c.predicate.returns.kindClass ≠ .boolean → op.Shows opText →
    c.predicate.returns.contains value = true → value.Shows text →
    Shows ps (.compare id c op value) (comparisonText s opText text)
  | and (id : NodeId) {a b : Condition} {s t : String} :
    a.Shows ps s → b.Shows ps t → Shows ps (.and id a b) ("(" ++ s ++ " and " ++ t ++ ")")
  | or (id : NodeId) {a b : Condition} {s t : String} :
    a.Shows ps s → b.Shows ps t → Shows ps (.or id a b) ("(" ++ s ++ " or " ++ t ++ ")")
  | not (id : NodeId) {a : Condition} {s : String} :
    a.Shows ps s → Shows ps (.not id a) ("(not " ++ s ++ ")")

/-- The body of a block shows the integer that the block adds. -/
inductive Block.Shows (ps : List Predicate) : Block → String → Prop
  | line (id : NodeId) {condition : Condition} {n : Int64} {s body : String} :
    condition.Shows ps s → (Literal.int n).Shows body →
    Shows ps ⟨id, condition, n.toInt⟩ (blockText s body)

/-! ### Texts of trees -/

namespace Tree

/-- The text of a chain that leads to a literal. -/
theorem shows_literal {t : Tree} {value : Literal} {s : String} (h : t.literal? = some value)
    (hs : t.render = .ok s) : value.Shows s := by
  fun_induction literal? t generalizing s with
  | case1 id literal children =>
    rw [render] at hs
    rw [← Except.ok.inj hs, ← Option.some.inj h]
    exact .text literal
  | case2 => cases h
  | case3 id r only ih =>
    cases hr : r.isTransparent with
    | true =>
      rw [render_only hr] at hs
      exact ih h hs
    | false =>
      rcases render_only_shown hr hs with
        ⟨_, inner, hinner, rfl⟩ | ⟨_, delta, hdelta, rfl⟩ | ⟨name, hname⟩
      · exact .negated (ih h hinner)
      · obtain ⟨n, hn, rfl⟩ := integer?_eq_some hdelta
        rw [h] at hn
        rw [Option.some.inj hn]
        exact .adjustment n
      · rw [(literal?_of_terminal? hname).1] at h
        cases h
  | case4 => cases h

/-- The text of a chain that leads to an operator. -/
theorem shows_comparator {t : Tree} {op : Comparator} {s : String} (h : t.comparator? = some op)
    (hs : t.render = .ok s) : op.Shows s := by
  fun_induction comparator? t generalizing s with
  | case1 id op' children =>
    rw [render] at hs
    rw [← Except.ok.inj hs, ← Option.some.inj h]
    exact .text op'
  | case2 => cases h
  | case3 id r only ih =>
    cases hr : r.isTransparent with
    | true =>
      rw [render_only hr] at hs
      exact ih h hs
    | false =>
      rcases render_only_shown hr hs with
        ⟨_, inner, hinner, rfl⟩ | ⟨_, delta, hdelta, rfl⟩ | ⟨name, hname⟩
      · exact .negated (ih h hinner)
      · obtain ⟨n, hn, _⟩ := integer?_eq_some hdelta
        rw [comparator?_of_literal? hn] at h
        cases h
      · rw [(literal?_of_terminal? hname).2] at h
        cases h
  | case4 => cases h

theorem render_of_terminal? {t : Tree} {term : Terminal} {s : String}
    (h : t.terminal? = some term) (hs : t.render = .ok s) : s = term.text := by
  obtain ⟨id, label, children⟩ := t
  cases label with
  | rule r => cases h
  | terminal term' =>
    obtain rfl := Option.some.inj h
    rw [render] at hs
    exact (Except.ok.inj hs).symm

theorem shows_arguments {params : List Param} {ts : List Tree} {values : List Literal}
    {texts : List String} (h : CompiledArguments params ts values) (hs : renderAll ts = .ok texts) :
    ArgumentsShow params values texts := by
  induction h generalizing texts with
  | nil =>
    rw [renderAll] at hs
    rw [← Except.ok.inj hs]
    exact .nil
  | state hterminal _ ih =>
    rw [renderAll] at hs
    obtain ⟨text, htext, hs⟩ := Result.bind_eq_ok_iff.1 hs
    obtain ⟨texts', htexts, hs⟩ := Result.bind_eq_ok_iff.1 hs
    rw [← Result.pure_eq_ok_iff.1 hs, render_of_terminal? hterminal htext]
    exact .state (ih htexts)
  | action hterminal _ ih =>
    rw [renderAll] at hs
    obtain ⟨text, htext, hs⟩ := Result.bind_eq_ok_iff.1 hs
    obtain ⟨texts', htexts, hs⟩ := Result.bind_eq_ok_iff.1 hs
    rw [← Result.pure_eq_ok_iff.1 hs, render_of_terminal? hterminal htext]
    exact .action (ih htexts)
  | choice hvalue hlegal _ ih =>
    rw [renderAll] at hs
    obtain ⟨text, htext, hs⟩ := Result.bind_eq_ok_iff.1 hs
    obtain ⟨texts', htexts, hs⟩ := Result.bind_eq_ok_iff.1 hs
    rw [← Result.pure_eq_ok_iff.1 hs]
    exact .choice hlegal (shows_literal hvalue htext) (ih htexts)

variable {ps : List Predicate}

/-- The text of a call, bare or compared. -/
theorem shows_call {id : NodeId} {target : Nat} {p : Predicate} {rest : List Tree}
    {condition : Condition} {texts : List String}
    (hfound : findPredicate p.name 0 ps = some (target, p))
    (h : CompiledCall id target p (splitComparison rest).1 (splitComparison rest).2 condition)
    (hs : renderAll rest = .ok texts) :
    condition.Shows ps (layoutCall p.name (splitComparison rest).2.isSome texts) := by
  -- the call compiles from the parts, while its text is made of the whole list
  have hparts := splitComparison_eq rest
  generalize (splitComparison rest).1 = arguments at h hparts
  generalize (splitComparison rest).2 = comparison at h hparts
  subst hparts
  cases h with
  | bare hlen hvalues hclass =>
    rw [List.append_nil] at hs
    have harguments := shows_arguments (compileArguments_eq_ok hlen hvalues) hs
    exact .call id (.named hfound harguments) hclass
  | @compared values opNode valueNode op value hlen hvalues hclass hop _ hvalue hlegal =>
    obtain ⟨before, opText, valueText, hbefore, hopText, hvalueText, rfl⟩ :=
      renderAll_append_two hs
    have harguments := shows_arguments (compileArguments_eq_ok hlen hvalues) hbefore
    rw [Option.isSome_some, layoutCall, if_pos rfl, splitLastTwo_append]
    exact .compare id (.named hfound harguments) hclass (shows_comparator hop hopText) hlegal
      (shows_literal hvalue hvalueText)

/-- The text of a condition. -/
theorem shows_condition {t : Tree} {condition : Condition} {s : String}
    (h : t.compileCondition ps = .ok condition) (hs : t.render = .ok s) : condition.Shows ps s := by
  fun_induction compileCondition ps t generalizing condition s with
  | case1 => cases h
  | case2 id t ih | case3 id t ih | case4 id t ih =>
    rw [render_only rfl] at hs
    exact ih h hs
  | case5 id a b iha ihb =>
    obtain ⟨x, hx, h⟩ := Result.bind_eq_ok_iff.1 h
    obtain ⟨y, hy, h⟩ := Result.bind_eq_ok_iff.1 h
    rw [← Result.pure_eq_ok_iff.1 h]
    cases rendered_of_render hs with
    | conjunction hu hv => exact .and id (iha hx hu) (ihb hy hv)
    | transparent hr _ => cases hr
  | case6 id a b iha ihb =>
    obtain ⟨x, hx, h⟩ := Result.bind_eq_ok_iff.1 h
    obtain ⟨y, hy, h⟩ := Result.bind_eq_ok_iff.1 h
    rw [← Result.pure_eq_ok_iff.1 h]
    cases rendered_of_render hs with
    | disjunction hu hv => exact .or id (iha hx hu) (ihb hy hv)
    | transparent hr _ => cases hr
  | case7 id a ih =>
    obtain ⟨x, hx, h⟩ := Result.bind_eq_ok_iff.1 h
    rw [← Result.pure_eq_ok_iff.1 h]
    cases rendered_of_render hs with
    | negation hinner => exact .not id (ih hx hinner)
    | transparent hr _ => cases hr
  | case8 => cases h
  | case9 id i nameId name below rest target p hfound arguments comparison hsplit =>
    obtain rfl : p.name = name := (findPredicate_eq_some hfound).2.2
    have hcall := compileCall_eq_ok h
    have harguments : (splitComparison rest).1 = arguments := congrArg Prod.fst hsplit
    have hcomparison : (splitComparison rest).2 = comparison := congrArg Prod.snd hsplit
    rw [← harguments, ← hcomparison] at hcall
    cases rendered_of_render hs with
    | predicate htexts => exact shows_call hfound hcall htexts
    | transparent hr _ => cases hr
  | case10 => cases h

/-- The text of a block. -/
theorem shows_block {range : Int} {t : Tree} {block : Block} {s : String}
    (h : t.compileBlock ps range = .ok block) (hs : t.render = .ok s) : block.Shows ps s := by
  unfold compileBlock at h
  split at h
  · rename_i id condition body
    obtain ⟨c, hc, h⟩ := Result.bind_eq_ok_iff.1 h
    obtain ⟨delta, hdelta, h⟩ := Result.bind_eq_ok_iff.1 h
    obtain ⟨n, hn, rfl⟩ := integer?_eq_some (compileDelta_eq_ok_iff.1 hdelta).1
    rw [← Result.pure_eq_ok_iff.1 h]
    cases rendered_of_render hs with
    | block hu hv => exact .line id (shows_condition hc hu) (shows_literal hn hv)
    | transparent hr _ => cases hr
  · cases h

theorem shows_blocks {range : Int} {ts : List Tree} {blocks : List Block} {texts : List String}
    (h : ts.mapM (compileBlock ps range) = .ok blocks) (hs : renderAll ts = .ok texts) :
    List.Forall₂ (Block.Shows ps) blocks texts := by
  induction ts generalizing blocks texts with
  | nil =>
    cases Result.mapM_eq_ok_iff.1 h
    cases renderAll_eq_ok_iff.1 hs
    exact .nil
  | cons t rest ih =>
    cases Result.mapM_eq_ok_iff.1 h with
    | cons hblock hblocks =>
      cases renderAll_eq_ok_iff.1 hs with
      | cons htext htexts =>
        have hrest := ih (Result.mapM_eq_ok_iff.2 hblocks) (renderAll_eq_ok_iff.2 htexts)
        exact .cons (shows_block hblock htext) hrest

/-- The text of a tree that compiles shows its blocks, one after another. -/
theorem shows_compile {range : Int} {t : Tree} {blocks : List Block} {s : String}
    (h : t.compile ps range = .ok blocks) (hs : t.render = .ok s) :
    ∃ texts, List.Forall₂ (Block.Shows ps) blocks texts ∧ s = String.join texts := by
  unfold compile at h
  split at h
  · rename_i id ts
    rw [render] at hs
    · obtain ⟨texts, htexts, hs⟩ := Result.bind_eq_ok_iff.1 hs
      exact ⟨texts, shows_blocks h htexts, (Result.pure_eq_ok_iff.1 hs).symm⟩
    all_goals simp
  · obtain ⟨block, hblock, h⟩ := Result.bind_eq_ok_iff.1 h
    rw [← Result.pure_eq_ok_iff.1 h]
    refine ⟨[s], .cons (shows_block hblock hs) .nil, ?_⟩
    rw [String.join_cons, String.join_nil, String.append_empty]
  · cases h
  · cases h

end Tree

end ScoreScript
