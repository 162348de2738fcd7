import ScoreScript.Proofs.Grammar.Derivation

/-!
# Grown trees conform to their grammar

What the grammar says about rules, before anything is drawn, is what growing meets: the trees that
are grown consist of rules that are reachable from the root, each replaced by what one of its
alternatives yields, and a rule without alternatives is met only where the validation has found one.

* `Tree.Conforms` — what a grammar asks of a node of a tree from a root;
* `Grammar.Derives.conforms` — all nodes of a derivation tree conform;
* `Grammar.expand_conforms` — a grown tree, node by node;
* `Grammar.validate_eq_error` — a reachable rule without alternatives makes the validation fail;
* `Grammar.validate_sound` — growing meets no such rule in a valid grammar, and only reachable ones
  in others.
-/

namespace ScoreScript

variable {σ : Type}

/-! ### Nodes -/

/-- A terminal is a leaf.  A rule is reachable from the root, and the labels of its children are what
one of its alternatives yields. -/
def Tree.Conforms (g : Grammar) (root : Rule) (t : Tree) : Prop :=
  match t.label with
  | .terminal _ => t.children = []
  | .rule r => r ∈ g.reachable root ∧ ∃ p ∈ g.alternatives r, p.Yields (t.children.map Tree.label)

namespace Grammar

variable {g : Grammar} {root : Rule}

/-- Every node of a derivation tree conforms, if the rule at the top is reached from the root. -/
theorem Derives.conforms {t : Tree} (ht : g.Derives t)
    (htop : ∀ r, t.label = .rule r → g.Reaches root r) :
    ∀ node ∈ t.preorder, node.Conforms g root := by
  induction ht with
  | terminal id term =>
    intro node hnode
    rcases Tree.mem_preorder_node.1 hnode with rfl | ⟨child, hchild, _⟩
    · rfl
    · exact absurd hchild List.not_mem_nil
  | @rule id r p children hp hyields hchildren ih =>
    intro node hnode
    have hr : g.Reaches root r := htop r rfl
    rcases Tree.mem_preorder_node.1 hnode with rfl | ⟨child, hchild, hbelow⟩
    · exact ⟨mem_reachable_iff.2 hr, p, hp, hyields⟩
    · refine ih child hchild ?_ node hbelow
      intro r' hlabel
      exact hr.of_yields hp hyields (hlabel ▸ List.mem_map_of_mem hchild)

/-! ### Grown trees -/

/-- **Growing yields derivations.**  A grown tree has the root at its top, all its nodes conform to
the grammar, they are numbered from 0 in preorder, and the tree is within the limits. -/
theorem expand_conforms {limits : Limits} (hlimits : limits.nodes < 2 ^ (32 : Nat))
    {stream rest : Stream σ} {t : Tree} (h : g.expand root limits stream = .done t rest) :
    t.label = .rule root ∧ (∀ node ∈ t.preorder, node.Conforms g root) ∧
      t.preorder.map (fun node => node.id.toNat) = List.range t.size ∧
      t.depth ≤ limits.depth ∧ t.size ≤ limits.nodes := by
  have hgrown := expand_spec h
  have hsize : t.size ≤ limits.nodes := t.size_eq_nodes ▸ hgrown.after_le
  have hids : t.preorder.map Tree.id = Tree.idsFrom 0 t.size := by
    rw [Tree.size_eq_nodes, ← Tree.ids_numbered, hgrown.numbered_eq]
  refine ⟨hgrown.label_eq, hgrown.derives.conforms ?_, ?_, ?_, hsize⟩
  · intro r hr
    rw [hgrown.label_eq] at hr
    injection hr with hr
    exact hr ▸ .root
  · have hmap := congrArg (List.map UInt32.toNat) hids
    rwa [List.map_map, Tree.toNat_idsFrom (by omega)] at hmap
  · rw [Tree.depth_eq_levels]
    exact hgrown.levels_le

/-- The tree of the nested words, node by node. -/
theorem expand_conforms_nested :
    ∃ t rest, nested.expand .start ⟨6, 7⟩ nestedWords = .done t rest ∧ t.label = .rule .start ∧
      (∀ node ∈ t.preorder, node.Conforms nested .start) ∧
      t.preorder.map (fun node => node.id.toNat) = List.range 7 ∧ t.depth ≤ 6 ∧ t.size ≤ 7 := by
  obtain ⟨t, rest, hexpand, _, hsize⟩ := expand_nested
  obtain ⟨hlabel, hconforms, hids, hdepth, hle⟩ := expand_conforms (by decide) hexpand
  exact ⟨t, rest, hexpand, hlabel, hconforms, hsize ▸ hids, hdepth, hle⟩

/-! ### Rules without alternatives -/

/-- A reachable rule without alternatives makes the validation fail. -/
theorem validate_eq_error {r : Rule} (hr : r ∈ g.reachable root) (hnil : g.alternatives r = []) :
    ∃ r₀, g.validate root = .error (.emptyRule r₀) := by
  cases hvalid : g.validate root with
  | ok _ => exact absurd hnil ((g.validate_eq_ok_iff root).1 hvalid r hr)
  | error e =>
    unfold validate at hvalid
    split at hvalid
    · rename_i r₀ _
      exact ⟨r₀, hvalid ▸ rfl⟩
    · cases hvalid

/-- A rule for which growing fails is reachable and has no alternatives. -/
theorem alternatives_of_missingRule {limits : Limits} {stream rest : Stream σ} {r : Rule}
    (h : g.expand root limits stream = .failed (.missingRule r) rest) :
    r ∈ g.reachable root ∧ g.alternatives r = [] := by
  rcases expand_failed h with hlimit | ⟨r', hr', hdefect⟩
  · cases hlimit
  · cases hdefect with
    | missing hnil => exact ⟨mem_reachable_iff.2 hr', hnil⟩

/-- **Validation is sound.**  In a grammar that is valid from a root growing meets no rule without
alternatives.  Where it does meet one, in whatever grammar, the rule is reachable from the root and
has no alternatives, and the grammar is not valid. -/
theorem validate_sound (g : Grammar) (root : Rule) :
    (g.validate root = .ok () → ∀ {σ : Type} (limits : Limits) (stream rest : Stream σ) (r : Rule),
      g.expand root limits stream ≠ .failed (.missingRule r) rest) ∧
    ∀ {σ : Type} (limits : Limits) (stream rest : Stream σ) (r : Rule),
      g.expand root limits stream = .failed (.missingRule r) rest →
      r ∈ g.reachable root ∧ g.alternatives r = [] ∧
        ∃ r₀, g.validate root = .error (.emptyRule r₀) := by
  constructor
  · intro hvalid σ limits stream rest r h
    obtain ⟨hr, hnil⟩ := alternatives_of_missingRule h
    exact (g.validate_eq_ok_iff root).1 hvalid r hr hnil
  · intro σ limits stream rest r h
    obtain ⟨hr, hnil⟩ := alternatives_of_missingRule h
    exact ⟨hr, hnil, validate_eq_error hr hnil⟩

/-- A condition that has to be a disjunction, and nothing that a disjunction could be. -/
def unfinished : Grammar :=
  ofRules [(.condition, [.one (.rule .disjunction)])]

/-- The grammar of nested negations is valid and misses no rule; the unfinished one is not valid and
misses the disjunction. -/
theorem validate_sound_unfinished :
    nested.validate .start = .ok () ∧
      (∀ r rest, nested.expand .start ⟨6, 7⟩ nestedWords ≠ .failed (.missingRule r) rest) ∧
      (∃ rest, unfinished.expand .condition .default nestedWords =
        .failed (.missingRule .disjunction) rest) ∧
      .disjunction ∈ unfinished.reachable .condition ∧
      unfinished.alternatives .disjunction = [] ∧
      ∃ r₀, unfinished.validate .condition = .error (.emptyRule r₀) := by
  have hvalid : nested.validate .start = .ok () := rfl
  have hmissing : (match unfinished.expand .condition .default nestedWords with
      | .failed (.missingRule r) _ => r == .disjunction
      | _ => false) = true := by decide +kernel
  refine ⟨hvalid, fun r rest => (validate_sound nested .start).1 hvalid _ _ _ _, ?_⟩
  split at hmissing
  · rename_i r rest hfailed
    obtain rfl := eq_of_beq hmissing
    exact ⟨⟨rest, hfailed⟩, (validate_sound unfinished .condition).2 _ _ _ _ hfailed⟩
  · cases hmissing

end Grammar

end ScoreScript
