import ScoreScript.Proofs.Script.Generation
import ScoreScript.Proofs.Tree.Limits

/-!
# Legality of generated trees

Every node of a generated tree looks as the declarations and the configuration ask: literals are
members of their kinds, operators are among those offered, adjustments are within the range, and
calls follow the declaration of their predicate.

* `Param.Takes`, `Kind.TakesComparison` — which trees stand for an argument and for a comparison;
* `Tree.Legal` — what is asked of a node, by its label;
* `Rule.Expands.legal` — one level: what stands below a rule makes its node legal;
* `Grammar.Built.legal_of_mem_preorder` — all nodes of a derivation tree are legal;
* `Generator.generate_legal` — so are all nodes of a generated script.
-/

namespace ScoreScript

/-! ### Legal nodes -/

/-- The tree is a leaf with a terminal. -/
def Tree.IsLeafOf (t : Tree) (term : Terminal) : Prop :=
  t.label = .terminal term ∧ t.children = []

/-- The tree stands for an argument of a parameter: a handle, or a literal of the kind to choose
from. -/
def Param.Takes : Param → Tree → Prop
  | state, t => t.IsLeafOf .state
  | action, t => t.IsLeafOf .action
  | choice kind, t => t.label = .rule (.literal kind)

/-- The trees stand for the comparison of a result: none for a truth value, and otherwise an operator
of its class and a literal of its kind. -/
def Kind.TakesComparison (kind : Kind) (ts : List Tree) : Prop :=
  match kind.kindClass with
  | .boolean => ts = []
  | .numeric =>
    ∃ op value, ts = [op, value] ∧ op.label = .rule .numericComparator ∧
      value.label = .rule (.literal kind)
  | .enumerated =>
    ∃ op value, ts = [op, value] ∧ op.label = .rule .enumComparator ∧
      value.label = .rule (.literal kind)

/-- What declarations and configuration ask of a node. -/
def Tree.Legal (ps : List Predicate) (c : Config) (t : Tree) : Prop :=
  match t.label with
  | .rule (.literal kind) =>
    ∃ leaf value, t.children = [leaf] ∧ leaf.IsLeafOf (.value value) ∧ value ∈ kind.legal
  | .rule .numericComparator =>
    ∃ leaf op, t.children = [leaf] ∧ leaf.IsLeafOf (.op op) ∧ op ∈ c.comparators.operators .numeric
  | .rule .enumComparator =>
    ∃ leaf op, t.children = [leaf] ∧ leaf.IsLeafOf (.op op) ∧ (op = .equal ∨ op = .notEqual)
  | .rule .amount =>
    ∃ leaf, ∃ delta : Int64, t.children = [leaf] ∧ leaf.IsLeafOf (.value (.int delta)) ∧
      delta.toInt ≠ 0 ∧ (delta.toInt.natAbs : Int) ≤ c.scoreRange
  | .rule (.predicate index) =>
    ∃ p name arguments comparison, ps[index]? = some p ∧
      t.children = name :: (arguments ++ comparison) ∧ name.IsLeafOf (.name p.name) ∧
      List.Forall₂ Param.Takes p.params arguments ∧ p.returns.TakesComparison comparison
  | .rule .disjunction => c.allowDisjunction = true
  | .rule _ => True
  | .terminal _ => t.children = []

/-! ### One level -/

/-- Leaves stand below a rule that only yields terminals. -/
theorem Grammar.Derives.isLeafOf {g : Grammar} {t : Tree} {term : Terminal} (h : g.Derives t)
    (hlabel : t.label = .terminal term) : t.IsLeafOf term := by
  cases h with
  | terminal id term' => exact ⟨hlabel, rfl⟩
  | rule id _ _ _ => cases hlabel

theorem Param.takes_of_label {g : Grammar} {param : Param} {t : Tree} (ht : g.Derives t)
    (hlabel : t.label = argumentSymbol param) : param.Takes t := by
  cases param with
  | state => exact ht.isLeafOf hlabel
  | action => exact ht.isLeafOf hlabel
  | choice kind => exact hlabel

theorem Param.forall₂_takes {g : Grammar} {params : List Param} {ts : List Tree}
    (hts : ∀ t ∈ ts, g.Derives t) (hlabels : ts.map Tree.label = params.map argumentSymbol) :
    List.Forall₂ Param.Takes params ts := by
  induction params generalizing ts with
  | nil => rw [Tree.map_label_eq_nil hlabels]; exact .nil
  | cons param params ih =>
    obtain ⟨t, rest, rfl, ht, hrest⟩ := List.map_eq_cons_iff.1 hlabels
    obtain ⟨hfirst, hothers⟩ := List.forall_mem_cons.1 hts
    exact .cons (Param.takes_of_label hfirst ht) (ih hothers hrest)

theorem Kind.takesComparison_of_labels {kind : Kind} {ts : List Tree}
    (hlabels : ts.map Tree.label = comparisonSymbols kind) : kind.TakesComparison ts := by
  rw [comparisonSymbols] at hlabels
  cases hclass : kind.kindClass with
  | boolean =>
    rw [hclass] at hlabels
    rw [TakesComparison, hclass]
    exact Tree.map_label_eq_nil hlabels
  | numeric | enumerated =>
    rw [hclass] at hlabels
    rw [TakesComparison, hclass]
    exact Tree.map_label_eq_two hlabels

/-- Disjunctions only stand below conditions, and only where they are allowed. -/
theorem Rule.Expands.allowDisjunction {ps : List Predicate} {c : Config} {r : Rule}
    {symbols : List Symbol} (h : r.Expands ps c symbols)
    (hmem : Symbol.rule .disjunction ∈ symbols) : c.allowDisjunction = true := by
  cases r with
  | start =>
    obtain ⟨count, rfl⟩ := h
    cases List.eq_of_mem_replicate hmem
  | condition =>
    rcases h with rfl | rfl | ⟨hallow, _⟩ | rfl
    · simp at hmem
    · simp at hmem
    · exact hallow
    · simp at hmem
  | amount | call | numericComparator | enumComparator | literal kind =>
    obtain ⟨_, _, rfl⟩ := h
    simp at hmem
  | predicate index =>
    obtain ⟨p, _, rfl⟩ := h
    simp only [callSymbols, List.mem_cons, List.mem_append, List.mem_map, reduceCtorEq,
      false_or] at hmem
    rcases hmem with ⟨param, _, hparam⟩ | hcomparison
    · cases param <;> cases hparam
    · rw [comparisonSymbols] at hcomparison
      cases hclass : p.returns.kindClass <;> simp [hclass, comparator?] at hcomparison
  | block | body | conjunction | disjunction | negation | atom | adjustment =>
    obtain rfl : symbols = _ := h
    simp at hmem

/-- One level: below a rule stands what makes its node legal. -/
theorem Rule.Expands.legal {g : Grammar} {ps : List Predicate} {c : Config} {r : Rule}
    {children : List Tree} (hrange : c.scoreRange ≤ maxScoreRange)
    (hexpands : r.Expands ps c (children.map Tree.label))
    (hchildren : ∀ t ∈ children, g.Derives t)
    (hallow : r = .disjunction → c.allowDisjunction = true) (id : NodeId) :
    (Tree.node id (.rule r) children).Legal ps c := by
  have hleaf : ∀ {t : Tree} {term : Terminal}, children = [t] → t.label = .terminal term →
      t.IsLeafOf term := by
    intro t term hone hlabel
    exact (hchildren t (hone ▸ List.mem_singleton_self t)).isLeafOf hlabel
  cases r with
  | amount =>
    obtain ⟨i, hi, hlabels⟩ := hexpands
    obtain ⟨t, hone, ht⟩ := Tree.map_label_eq_one hlabels
    obtain ⟨hlo, hhi, hne⟩ := mem_adjustments.1 hi
    have hmax : c.scoreRange ≤ 8 := hrange
    have hvalue : (Int64.ofInt i).toInt = i := Int64.toInt_ofInt_of_le (by omega) (by omega)
    refine ⟨t, Int64.ofInt i, hone, hleaf hone ht, ?_, ?_⟩
    · rw [hvalue]
      exact hne
    · rw [hvalue]
      omega
  | literal kind =>
    obtain ⟨value, hvalue, hlabels⟩ := hexpands
    obtain ⟨t, hone, ht⟩ := Tree.map_label_eq_one hlabels
    exact ⟨t, value, hone, hleaf hone ht, hvalue⟩
  | numericComparator =>
    obtain ⟨op, hop, hlabels⟩ := hexpands
    obtain ⟨t, hone, ht⟩ := Tree.map_label_eq_one hlabels
    exact ⟨t, op, hone, hleaf hone ht, hop⟩
  | enumComparator =>
    obtain ⟨op, hop, hlabels⟩ := hexpands
    obtain ⟨t, hone, ht⟩ := Tree.map_label_eq_one hlabels
    rw [ComparatorSet.operators, List.mem_pair] at hop
    exact ⟨t, op, hone, hleaf hone ht, hop⟩
  | predicate index =>
    obtain ⟨p, hp, hlabels⟩ := hexpands
    obtain ⟨name, rest, rfl, hname, hrest⟩ := List.map_eq_cons_iff.1 hlabels
    obtain ⟨arguments, comparison, rfl, harguments, hcomparison⟩ := List.map_eq_append_iff.1 hrest
    obtain ⟨hfirst, hothers⟩ := List.forall_mem_cons.1 hchildren
    refine ⟨p, name, arguments, comparison, hp, rfl, hfirst.isLeafOf hname, ?_, ?_⟩
    · exact Param.forall₂_takes (fun t ht => hothers t (List.mem_append_left _ ht)) harguments
    · exact Kind.takesComparison_of_labels hcomparison
  | disjunction => exact hallow rfl
  | _ => trivial

/-! ### Whole trees -/

/-- Every node of a derivation tree is legal, if a disjunction is allowed when it stands at the
root. -/
theorem Grammar.Built.legal_of_mem_preorder {ps : List Predicate} {c : Config} {g : Grammar}
    (h : Built ps c g) {t : Tree} (ht : g.Derives t)
    (hroot : t.label = .rule .disjunction → c.allowDisjunction = true) :
    ∀ node ∈ t.preorder, node.Legal ps c := by
  induction ht with
  | terminal id term =>
    intro node hnode
    rcases Tree.mem_preorder_node.1 hnode with rfl | ⟨child, hchild, _⟩
    · rfl
    · exact absurd hchild List.not_mem_nil
  | @rule id r p children hp hyields hchildren ih =>
    intro node hnode
    have hexpands := h.expands hp hyields
    rcases Tree.mem_preorder_node.1 hnode with rfl | ⟨child, hchild, hbelow⟩
    · exact hexpands.legal h.le_max hchildren (fun hr => hroot (hr ▸ rfl)) id
    · refine ih child hchild ?_ node hbelow
      intro hlabel
      exact hexpands.allowDisjunction (hlabel ▸ List.mem_map_of_mem hchild)

namespace Generator

variable {S A σ : Type}

/-- **Legality.**  The tree of a generated script begins at the start, keeps within the limits, and
all its nodes are legal. -/
theorem generate_legal {catalog : Catalog S A} {config : Config} {g : Generator S A}
    (hmake : make catalog config = .ok g) {stream rest : Stream σ} {script : Script S A}
    (hscript : g.generate stream = .done script rest) :
    (∀ node ∈ script.tree.preorder, node.Legal catalog.predicates config) ∧
      script.tree.label = .rule .start ∧ script.tree.depth ≤ config.limits.depth ∧
      script.tree.size ≤ config.limits.nodes := by
  have hmade := make_eq_ok hmake
  obtain ⟨_, _, hexpand, _⟩ := generate_eq_done hscript
  have hgrown := Grammar.expand_spec hexpand
  rw [hmade.config_eq] at hgrown
  have hlabel := hgrown.label_eq
  refine ⟨hmade.built.legal_of_mem_preorder hgrown.derives ?_, hlabel, ?_, ?_⟩
  · rw [hlabel]
    intro h
    cases h
  · rw [Tree.depth_eq_levels]
    exact hgrown.levels_le
  · rw [Tree.size_eq_nodes]
    exact hgrown.after_le

/-- The script of the small words is legal. -/
theorem generate_legal_small :
    ∃ g script rest, make Catalog.small .default = .ok g ∧
      g.generate (.start WordSource.small 0 100) = .done script rest ∧
      script.blocks.length = 1 ∧
      (∀ node ∈ script.tree.preorder, node.Legal Catalog.small.predicates .default) ∧
      script.tree.depth ≤ 32 ∧ script.tree.size ≤ 512 := by
  obtain ⟨g, script, rest, hg, hrun, hblocks⟩ := generate_small
  obtain ⟨hlegal, _, hdepth, hsize⟩ := generate_legal hg hrun
  exact ⟨g, script, rest, hg, hrun, hblocks, hlegal, hdepth, hsize⟩

end Generator

end ScoreScript
