import ScoreScript.Proofs.Script.Shown
import ScoreScript.Proofs.Tree.Labels

/-!
# The layout of texts

Whatever tree has a text, the parentheses in it match, as long as no name brings in parentheses of
its own.  The texts of trees that compile are laid out in lines, one for each block: line ends stand
behind blocks and nowhere else, since no condition and no body has a block in it.

* `Balanced` — texts whose parentheses match, and `Tree.balanced_render` — so do those of trees;
* `Condition.Shows.not_mem`, `Block.Shows.exists_line` — conditions within a line, blocks as lines;
* `Tree.name_mem_names` — the names of the calls are names in the tree;
* `Tree.text_wellFormed` — the layout of texts.
-/

namespace ScoreScript

/-- What holds of some texts and of the separator holds of the texts with the separator in between,
if texts can be put together. -/
theorem intercalate_of {P : String → Prop} (hempty : P "")
    (happend : ∀ {s t : String}, P s → P t → P (s ++ t)) {separator : String}
    (hseparator : P separator) {texts : List String} (h : ∀ text ∈ texts, P text) :
    P (separator.intercalate texts) := by
  induction texts with
  | nil => rwa [String.intercalate_nil]
  | cons text rest ih =>
    obtain ⟨htext, hrest⟩ := List.forall_mem_cons.1 h
    cases rest with
    | nil => rwa [String.intercalate_singleton]
    | cons next rest =>
      rw [String.intercalate_cons_cons]
      exact happend (happend htext hseparator) (ih hrest)

/-! ### Parentheses that match -/

/-- No beginning of the text closes more parentheses than it opens, and the whole closes them all. -/
structure Balanced (s : String) : Prop where
  front : ∀ n, (s.toList.take n).count ')' ≤ (s.toList.take n).count '('
  total : s.toList.count ')' = s.toList.count '('

namespace Balanced

variable {s t : String}

theorem of_not_mem (hopen : '(' ∉ s.toList) (hclose : ')' ∉ s.toList) : Balanced s := by
  refine ⟨fun n => ?_, ?_⟩
  · have hnone : ')' ∉ s.toList.take n := fun h => hclose (List.mem_of_mem_take h)
    rw [List.count_eq_zero.2 hnone]
    exact Nat.zero_le _
  · rw [List.count_eq_zero.2 hopen, List.count_eq_zero.2 hclose]

theorem append (hs : Balanced s) (ht : Balanced t) : Balanced (s ++ t) := by
  refine ⟨fun n => ?_, ?_⟩
  · have hleft := hs.front n
    have hright := ht.front (n - s.toList.length)
    rw [String.toList_append, List.take_append, List.count_append, List.count_append]
    omega
  · rw [String.toList_append, List.count_append, List.count_append, hs.total, ht.total]

theorem parens (h : Balanced s) : Balanced ("(" ++ s ++ ")") := by
  have hlist : ("(" ++ s ++ ")").toList = '(' :: (s.toList ++ [')']) := by
    rw [String.toList_append, String.toList_append]
    rfl
  refine ⟨fun n => ?_, ?_⟩
  · rw [hlist]
    cases n with
    | zero => exact Nat.le_refl _
    | succ n =>
      -- the one sign behind `s` is made up for by the one in front
      have hlast : ([')'].take (n - s.toList.length)).count ')' ≤ 1 :=
        Nat.le_trans ((List.take_sublist _ _).count_le _) (by decide)
      have hfront := h.front n
      rw [List.take_succ_cons, List.take_append, List.count_cons_of_ne (by decide),
        List.count_cons_self, List.count_append, List.count_append]
      omega
  · rw [hlist, List.count_cons_of_ne (by decide), List.count_cons_self, List.count_append,
      List.count_append, h.total]
    rfl

theorem join {texts : List String} (h : ∀ text ∈ texts, Balanced text) :
    Balanced (String.join texts) := by
  induction texts with
  | nil => exact of_not_mem (by decide) (by decide)
  | cons text rest ih =>
    obtain ⟨htext, hrest⟩ := List.forall_mem_cons.1 h
    rw [String.join_cons]
    exact htext.append (ih hrest)

theorem intercalate {separator : String} (hseparator : Balanced separator) {texts : List String}
    (h : ∀ text ∈ texts, Balanced text) : Balanced (separator.intercalate texts) :=
  intercalate_of (of_not_mem (by decide) (by decide)) append hseparator h

end Balanced

/-! ### Texts of parts -/

theorem splitLastTwo_eq (texts : List String) :
    texts = (splitLastTwo texts).1 ++
      (match (splitLastTwo texts).2 with | none => [] | some (op, value) => [op, value]) := by
  fun_induction splitLastTwo texts with
  | case1 => rfl
  | case2 => rfl
  | case3 op value => rfl
  | case4 text rest _ _ before pair hsplit ih =>
    rw [hsplit] at ih
    rw [List.cons_append, ← ih]

theorem balanced_callText {name : String} (hname : Balanced name) {texts : List String}
    (h : ∀ text ∈ texts, Balanced text) : Balanced (callText name texts) := by
  have hcomma : Balanced ", " := .of_not_mem (by decide) (by decide)
  simpa only [callText, String.append_assoc] using hname.append (hcomma.intercalate h).parens

theorem balanced_comparisonText {call op value : String} (hcall : Balanced call)
    (hop : Balanced op) (hvalue : Balanced value) : Balanced (comparisonText call op value) := by
  have hblank : Balanced " " := .of_not_mem (by decide) (by decide)
  have hinside := (((hcall.append hblank).append hop).append hblank).append hvalue
  simpa only [comparisonText, String.append_assoc] using hinside.parens

theorem balanced_layoutCall {name : String} (hname : Balanced name) (compared : Bool)
    {texts : List String} (h : ∀ text ∈ texts, Balanced text) :
    Balanced (layoutCall name compared texts) := by
  cases compared with
  | false => exact balanced_callText hname h
  | true =>
    -- laid out as a comparison or not, the text is made of the same parts
    have hparts := splitLastTwo_eq texts
    rw [layoutCall, if_pos rfl]
    generalize splitLastTwo texts = parts at hparts ⊢
    obtain ⟨before, pair⟩ := parts
    subst hparts
    obtain ⟨hbefore, hpair⟩ := List.forall_mem_append.1 h
    cases pair with
    | none => exact balanced_callText hname hbefore
    | some pair =>
      exact balanced_comparisonText (balanced_callText hname hbefore) (hpair _ (by simp))
        (hpair _ (by simp))

theorem balanced_adjustmentText (delta : Int) : Balanced (adjustmentText delta) := by
  have hdigits : Balanced delta.natAbs.repr :=
    .of_not_mem (not_mem_of_all (all_natRepr _) rfl) (not_mem_of_all (all_natRepr _) rfl)
  unfold adjustmentText
  split
  · exact (Balanced.of_not_mem (by decide) (by decide)).append hdigits
  · exact (Balanced.of_not_mem (by decide) (by decide)).append hdigits

theorem balanced_blockText {condition body : String} (hcondition : Balanced condition)
    (hbody : Balanced body) : Balanced (blockText condition body) := by
  have hif : Balanced "if " := .of_not_mem (by decide) (by decide)
  have hcolon : Balanced ": " := .of_not_mem (by decide) (by decide)
  have hend : Balanced "\n" := .of_not_mem (by decide) (by decide)
  have hsplit : "if (" = "if " ++ "(" := by decide
  have hsplit' : "): " = ")" ++ ": " := by decide
  rw [blockText, hsplit, hsplit']
  have hline := (((hif.append hcondition.parens).append hcolon).append hbody).append hend
  simpa only [String.append_assoc] using hline

theorem balanced_notText {s : String} (h : Balanced s) : Balanced ("(not " ++ s ++ ")") := by
  have hnot : Balanced "not " := .of_not_mem (by decide) (by decide)
  have hsplit : "(not " = "(" ++ "not " := by decide
  rw [hsplit]
  simpa only [String.append_assoc] using (hnot.append h).parens

theorem balanced_bothText {s t word : String} (hs : Balanced s) (hword : Balanced word)
    (ht : Balanced t) : Balanced ("(" ++ s ++ word ++ t ++ ")") := by
  simpa only [String.append_assoc] using ((hs.append hword).append ht).parens

/-! ### Parentheses in the texts of trees -/

namespace Tree

theorem balanced_renderAll {ts : List Tree} (h : ∀ t ∈ ts, ∀ s, t.render = .ok s → Balanced s)
    {texts : List String} (hs : renderAll ts = .ok texts) : ∀ text ∈ texts, Balanced text := by
  induction renderAll_eq_ok_iff.1 hs with
  | nil => exact fun text htext => absurd htext List.not_mem_nil
  | @cons t text ts texts htext hrest ih =>
    obtain ⟨hfirst, hmore⟩ := List.forall_mem_cons.1 h
    exact List.forall_mem_cons.2 ⟨hfirst text htext, ih hmore (renderAll_eq_ok_iff.2 hrest)⟩

/-- The parentheses match in whatever text a tree has. -/
theorem balanced_render {t : Tree}
    (hnames : ∀ name ∈ t.names, '(' ∉ name.toList ∧ ')' ∉ name.toList) {s : String}
    (hs : t.render = .ok s) : Balanced s := by
  induction t using children_induction generalizing s with
  | node id label children ih =>
    replace ih : ∀ t ∈ children, ∀ s, t.render = .ok s → Balanced s := fun t ht s =>
      ih t ht fun name hname => hnames name (mem_names_of_mem_children ht hname)
    cases label with
    | terminal term =>
      have hterm : ∀ name, term = .name name → '(' ∉ name.toList ∧ ')' ∉ name.toList :=
        fun name hname => hnames name (mem_names_node.2 (Or.inl (congrArg _ hname)))
      rw [render] at hs
      rw [← Except.ok.inj hs]
      exact .of_not_mem (Terminal.not_mem_text rfl fun name h => (hterm name h).1)
        (Terminal.not_mem_text rfl fun name h => (hterm name h).2)
    | rule r =>
      cases rendered_of_render hs with
      | block ha hb => exact balanced_blockText (ih _ (by simp) _ ha) (ih _ (by simp) _ hb)
      | conjunction ha hb | disjunction ha hb =>
        exact balanced_bothText (ih _ (by simp) _ ha) (.of_not_mem (by decide) (by decide))
          (ih _ (by simp) _ hb)
      | negation ha => exact balanced_notText (ih _ (by simp) _ ha)
      | adjustment _ => exact balanced_adjustmentText _
      | @predicate i nameId name below rest texts htexts =>
        obtain ⟨hopen, hclose⟩ := hnames name
          (mem_names_of_mem_children List.mem_cons_self (mem_names_node.2 (Or.inl rfl)))
        have harguments := balanced_renderAll (fun t ht => ih t (List.mem_cons_of_mem _ ht)) htexts
        exact balanced_layoutCall (.of_not_mem hopen hclose) _ harguments
      | transparent _ htexts => exact .join (balanced_renderAll ih htexts)

end Tree

/-! ### Line ends -/

theorem Literal.Shows.not_mem {v : Literal} {s : String} (h : v.Shows s) : '\n' ∉ s.toList := by
  induction h with
  | text v => exact not_mem_of_all v.all_text rfl
  | adjustment n =>
    have hdigits := not_mem_of_all (all_natRepr n.toInt.natAbs) (c := '\n') rfl
    unfold adjustmentText
    split
    · exact not_mem_append (by decide) hdigits
    · exact not_mem_append (by decide) hdigits
  | negated _ ih => exact not_mem_append (not_mem_append (by decide) ih) (by decide)

theorem Comparator.Shows.not_mem {op : Comparator} {s : String} (h : op.Shows s) :
    '\n' ∉ s.toList := by
  induction h with
  | text => exact not_mem_of_all op.all_text rfl
  | negated _ ih => exact not_mem_append (not_mem_append (by decide) ih) (by decide)

theorem ArgumentsShow.not_mem {params : List Param} {values : List Literal} {texts : List String}
    (h : ArgumentsShow params values texts) : ∀ text ∈ texts, '\n' ∉ text.toList := by
  induction h with
  | nil => exact fun text htext => absurd htext List.not_mem_nil
  | state _ ih | action _ ih => exact List.forall_mem_cons.2 ⟨by decide, ih⟩
  | choice _ htext _ ih => exact List.forall_mem_cons.2 ⟨htext.not_mem, ih⟩

section Lines

variable {ps : List Predicate}

theorem Call.Shows.not_mem {c : Call} {s : String} (h : c.Shows ps s)
    (hname : '\n' ∉ c.predicate.name.toList) : '\n' ∉ s.toList := by
  cases h with
  | @named target p values texts _ harguments =>
    have hinside : '\n' ∉ (", ".intercalate texts).toList :=
      intercalate_of (P := ('\n' ∉ ·.toList)) List.not_mem_nil not_mem_append (by decide)
        harguments.not_mem
    exact not_mem_append (not_mem_append (not_mem_append hname (by decide)) hinside) (by decide)

/-- A condition stands within a line, unless it calls a predicate whose name does not. -/
theorem Condition.Shows.not_mem {condition : Condition} {s : String} (h : condition.Shows ps s)
    (hnames : ∀ c ∈ condition.calls, '\n' ∉ c.predicate.name.toList) : '\n' ∉ s.toList := by
  induction h with
  | call id hc _ => exact hc.not_mem (hnames _ List.mem_cons_self)
  | @compare id c op value s opText text hc _ hop _ hvalue =>
    have hcall : '\n' ∉ ("(" ++ s).toList :=
      not_mem_append (by decide) (hc.not_mem (hnames _ List.mem_cons_self))
    have hleft : '\n' ∉ ("(" ++ s ++ " " ++ opText).toList :=
      not_mem_append (not_mem_append hcall (by decide)) hop.not_mem
    exact not_mem_append (not_mem_append (not_mem_append hleft (by decide)) hvalue.not_mem)
      (by decide)
  | @and id a b s t _ _ iha ihb | @or id a b s t _ _ iha ihb =>
    obtain ⟨hleft, hright⟩ := List.forall_mem_append.1 hnames
    have hfront : '\n' ∉ ("(" ++ s).toList := not_mem_append (by decide) (iha hleft)
    exact not_mem_append (not_mem_append (not_mem_append hfront (by decide)) (ihb hright))
      (by decide)
  | not id _ ih => exact not_mem_append (not_mem_append (by decide) (ih hnames)) (by decide)

/-- A block is one line. -/
theorem Block.Shows.exists_line {b : Block} {s : String} (h : b.Shows ps s)
    (hnames : ∀ c ∈ b.condition.calls, '\n' ∉ c.predicate.name.toList) :
    ∃ line, s = line ++ "\n" ∧ '\n' ∉ line.toList ∧ ∃ rest, line = "if (" ++ rest := by
  cases h with
  | @line id condition n s body hcondition hbody =>
    refine ⟨"if (" ++ s ++ "): " ++ body, rfl, ?_, s ++ "): " ++ body, ?_⟩
    · have hfront : '\n' ∉ ("if (" ++ s).toList :=
        not_mem_append (by decide) (hcondition.not_mem hnames)
      exact not_mem_append (not_mem_append hfront (by decide)) hbody.not_mem
    · rw [String.append_assoc, String.append_assoc, String.append_assoc]

/-- Blocks are as many lines. -/
theorem exists_lines {blocks : List Block} {texts : List String}
    (h : List.Forall₂ (Block.Shows ps) blocks texts)
    (hnames : ∀ b ∈ blocks, ∀ c ∈ b.condition.calls, '\n' ∉ c.predicate.name.toList) :
    ∃ lines : List String, texts = lines.map (· ++ "\n") ∧ lines.length = blocks.length ∧
      ∀ line ∈ lines, '\n' ∉ line.toList ∧ ∃ rest, line = "if (" ++ rest := by
  induction h with
  | nil => exact ⟨[], rfl, rfl, fun line hline => absurd hline List.not_mem_nil⟩
  | cons hblock _ ih =>
    obtain ⟨hfirst, hrest⟩ := List.forall_mem_cons.1 hnames
    obtain ⟨line, rfl, hline⟩ := hblock.exists_line hfirst
    obtain ⟨lines, rfl, hlength, hlines⟩ := ih hrest
    refine ⟨line :: lines, rfl, ?_, List.forall_mem_cons.2 ⟨hline, hlines⟩⟩
    rw [List.length_cons, List.length_cons, hlength]

/-! ### Names of calls -/

theorem CompiledCall.predicate_eq {id : NodeId} {target : Nat} {p : Predicate}
    {arguments : List Tree} {comparison : Option (Tree × Tree)} {condition : Condition}
    (h : CompiledCall id target p arguments comparison condition) {c : Call}
    (hc : c ∈ condition.calls) : c.predicate = p := by
  cases h with
  | bare | compared => rw [List.mem_singleton.1 hc]

namespace Tree

theorem name_mem_names_condition {t : Tree} {condition : Condition}
    (h : t.compileCondition ps = .ok condition) {c : Call} (hc : c ∈ condition.calls) :
    c.predicate.name ∈ t.names := by
  fun_induction compileCondition ps t generalizing condition with
  | case1 => cases h
  | case2 id t ih | case3 id t ih | case4 id t ih =>
    exact mem_names_of_mem_children List.mem_cons_self (ih h hc)
  | case5 id a b iha ihb | case6 id a b iha ihb =>
    obtain ⟨x, hx, h⟩ := Result.bind_eq_ok_iff.1 h
    obtain ⟨y, hy, h⟩ := Result.bind_eq_ok_iff.1 h
    rw [← Result.pure_eq_ok_iff.1 h, Condition.calls, List.mem_append] at hc
    rcases hc with hc | hc
    · exact mem_names_of_mem_children (by simp) (iha hx hc)
    · exact mem_names_of_mem_children (by simp) (ihb hy hc)
  | case7 id a ih =>
    obtain ⟨x, hx, h⟩ := Result.bind_eq_ok_iff.1 h
    rw [← Result.pure_eq_ok_iff.1 h] at hc
    exact mem_names_of_mem_children List.mem_cons_self (ih hx hc)
  | case8 => cases h
  | case9 id i nameId name below rest target p hfound arguments comparison hsplit =>
    rw [(compileCall_eq_ok h).predicate_eq hc, (findPredicate_eq_some hfound).2.2]
    exact mem_names_of_mem_children List.mem_cons_self (mem_names_node.2 (Or.inl rfl))
  | case10 => cases h

theorem name_mem_names_block {range : Int} {t : Tree} {block : Block}
    (h : t.compileBlock ps range = .ok block) {c : Call} (hc : c ∈ block.condition.calls) :
    c.predicate.name ∈ t.names := by
  obtain ⟨condition, body, rfl, hcondition⟩ := compileBlock_eq_ok h
  exact mem_names_of_mem_children List.mem_cons_self (name_mem_names_condition hcondition hc)

/-- What a compiled tree calls is named in the tree. -/
theorem name_mem_names {range : Int} {t : Tree} {blocks : List Block}
    (h : t.compile ps range = .ok blocks) {block : Block} (hblock : block ∈ blocks) {c : Call}
    (hc : c ∈ block.condition.calls) : c.predicate.name ∈ t.names := by
  unfold compile at h
  split at h
  · obtain ⟨u, hu, hcompile⟩ := Result.exists_of_mapM_eq_ok h hblock
    exact mem_names_of_mem_children hu (name_mem_names_block hcompile hc)
  · obtain ⟨block', hblock', h⟩ := Result.bind_eq_ok_iff.1 h
    rw [← Result.pure_eq_ok_iff.1 h, List.mem_singleton] at hblock
    rw [hblock] at hc
    exact name_mem_names_block hblock' hc
  · cases h
  · cases h

/-! ### Texts -/

/-- **Texts are well formed.**  If the names in a tree bring in no parentheses and no line ends, then
the parentheses match in whatever text the tree has, and if its script is accepted, then the text is
made of as many lines as there are blocks, each of which begins as a block does. -/
theorem text_wellFormed {S A : Type} {t : Tree}
    (hnames : ∀ name ∈ t.names, '(' ∉ name.toList ∧ ')' ∉ name.toList ∧ '\n' ∉ name.toList) :
    (∀ s, t.render = .ok s → Balanced s) ∧
      ∀ (g : Generator S A) (script : Script S A), g.compileTree t = .ok script →
        ∃ lines : List String, script.source = String.join (lines.map (· ++ "\n")) ∧
          lines.length = script.blocks.length ∧
          ∀ line ∈ lines, '\n' ∉ line.toList ∧ ∃ rest, line = "if (" ++ rest := by
  constructor
  · intro s hs
    have hparens : ∀ name ∈ t.names, '(' ∉ name.toList ∧ ')' ∉ name.toList := fun name hname =>
      ⟨(hnames name hname).1, (hnames name hname).2.1⟩
    exact balanced_render hparens hs
  · intro g script hscript
    have hassemble := (Generator.compileTree_eq_ok_iff.1 hscript).2
    obtain ⟨_, _, hrender, hcompile⟩ := Script.assemble_eq_ok_iff.1 hassemble
    obtain ⟨texts, htexts, hsource⟩ := shows_compile hcompile hrender
    obtain ⟨lines, rfl, hlength, hlines⟩ := exists_lines htexts fun block hblock c hc =>
      (hnames _ (name_mem_names hcompile hblock hc)).2.2
    exact ⟨lines, hsource, hlength, hlines⟩

/-- The small script is one line. -/
theorem text_wellFormed_small :
    ∃ g script, Generator.make Catalog.small .default = .ok g ∧
      (∀ name ∈ (small (node 6 (.rule .adjustment) [three])).names,
        '(' ∉ name.toList ∧ ')' ∉ name.toList ∧ '\n' ∉ name.toList) ∧
      g.compileTree (small (node 6 (.rule .adjustment) [three])) = .ok script ∧
      script.source = "if (stab(action)): score += 3\n" ∧ Balanced script.source ∧
      ∃ lines : List String, script.source = String.join (lines.map (· ++ "\n")) ∧
        lines.length = 1 ∧ ∀ line ∈ lines, '\n' ∉ line.toList ∧ ∃ rest, line = "if (" ++ rest := by
  obtain ⟨g, script, hg, hscript, htest⟩ :=
    Generator.exists_script Catalog.small (small (node 6 (.rule .adjustment) [three]))
      (fun script => script.source == "if (stab(action)): score += 3\n" &&
        script.blocks.length == 1) (by decide +kernel)
  rw [Bool.and_eq_true, beq_iff_eq, beq_iff_eq] at htest
  obtain ⟨hsource, hone⟩ := htest
  have hnames : ∀ name ∈ (small (node 6 (.rule .adjustment) [three])).names,
      '(' ∉ name.toList ∧ ')' ∉ name.toList ∧ '\n' ∉ name.toList := by decide
  have hassemble := (Generator.compileTree_eq_ok_iff.1 hscript).2
  have hrender := (Script.assemble_eq_ok_iff.1 hassemble).2.2.1
  obtain ⟨hbalanced, hlines⟩ := text_wellFormed (S := Unit) (A := Unit) hnames
  obtain ⟨lines, hjoin, hlength, hline⟩ := hlines g script hscript
  exact ⟨g, script, hg, hnames, hscript, hsource, hbalanced _ hrender, lines, hjoin,
    hlength.trans hone, hline⟩

end Tree

end Lines

end ScoreScript
