import ScoreScript.Proofs.Script.Generation

/-!
# Plain trees

The compiler looks for literals, operators and adjustments through every chain of only children.  A
tree is plain if no rule that is shown stands on such a chain, but for the one that shows an
adjustment.  Trees from a grammar are plain; trees from elsewhere need not be.

* `Rule.isTransparent`, `Tree.isBare`, `Tree.isBareAdjustment` — chains on which nothing is shown;
* `Tree.hasBareCalls`, `Tree.isPlainBlock`, `Tree.isPlain` — trees all of whose chains are so;
* `Rule.Expands.isPlainFor` — plain children make a plain tree;
* `Generator.Made.isPlain_of_generate` — generated scripts are plain.
-/

namespace ScoreScript

/-- Rules that are not shown: what stands below them is shown as it is. -/
def Rule.isTransparent : Rule → Bool
  | .start | .body | .condition | .atom | .amount | .call | .numericComparator | .enumComparator
  | .literal _ => true
  | _ => false

namespace Tree

/-- A terminal below transparent rules alone. -/
def isBare : Tree → Bool
  | node _ (.terminal _) _ => true
  | node _ (.rule r) [only] => r.isTransparent && only.isBare
  | node _ (.rule _) _ => false

/-- An adjustment below transparent rules alone. -/
def isBareAdjustment : Tree → Bool
  | node _ (.rule .adjustment) _ => true
  | node _ (.rule r) [only] => r.isTransparent && only.isBareAdjustment
  | _ => false

/-- Arguments, operators and literals of all calls in a condition are bare. -/
def hasBareCalls : Tree → Bool
  | node _ (.rule (.predicate _)) (_ :: rest) => rest.all isBare
  | node _ (.rule _) [t] => t.hasBareCalls
  | node _ (.rule _) [a, b] => a.hasBareCalls && b.hasBareCalls
  | _ => true

/-- The condition and the body of a block are shown as they are compiled. -/
def isPlainBlock : Tree → Bool
  | node _ (.rule .block) [condition, body] => condition.hasBareCalls && body.isBareAdjustment
  | _ => true

/-- All blocks are shown as they are compiled. -/
def isPlain : Tree → Bool
  | node _ (.rule .start) blocks => blocks.all isPlainBlock
  | t => t.isPlainBlock

theorem isBareAdjustment_only {r : Rule} (h : r.isTransparent = true) (id : NodeId) (t : Tree) :
    (node id (.rule r) [t]).isBareAdjustment = t.isBareAdjustment := by
  rw [isBareAdjustment, h, Bool.true_and]
  intro hr
  subst hr
  cases h

theorem hasBareCalls_only {r : Rule} (h : ∀ i, r ≠ .predicate i) (id : NodeId) (t : Tree) :
    (node id (.rule r) [t]).hasBareCalls = t.hasBareCalls := by
  rw [hasBareCalls]
  exact h

theorem hasBareCalls_both {r : Rule} (h : ∀ i, r ≠ .predicate i) (id : NodeId) (a b : Tree) :
    (node id (.rule r) [a, b]).hasBareCalls = (a.hasBareCalls && b.hasBareCalls) := by
  rw [hasBareCalls]
  exact h

theorem isBare_of_terminal {t : Tree} {term : Terminal} (h : t.label = .terminal term) :
    t.isBare = true := by
  obtain ⟨id, label, children⟩ := t
  subst h
  rw [isBare]

theorem isBare_only_of_terminal {r : Rule} {t : Tree} {term : Terminal}
    (hr : r.isTransparent = true) (h : t.label = .terminal term) (id : NodeId) :
    (node id (.rule r) [t]).isBare = true := by
  rw [isBare, hr, isBare_of_terminal h]
  rfl

end Tree

/-! ### Trees from a grammar -/

/-- What it takes for a tree under a rule to be plain. -/
def Rule.isPlainFor : Rule → Tree → Bool
  | .start, t => t.isPlain
  | .block, t => t.isPlainBlock
  | .body, t => t.isBareAdjustment
  | .adjustment, t => t.isBareAdjustment
  | .amount, _ => true
  | .numericComparator, t => t.isBare
  | .enumComparator, t => t.isBare
  | .literal _, t => t.isBare
  | .condition, t => t.hasBareCalls
  | .conjunction, t => t.hasBareCalls
  | .disjunction, t => t.hasBareCalls
  | .negation, t => t.hasBareCalls
  | .atom, t => t.hasBareCalls
  | .call, t => t.hasBareCalls
  | .predicate _, t => t.hasBareCalls

/-- Whatever stands behind the name in a call is bare. -/
theorem isBare_of_mem_call {params : List Param} {returns : Kind} {t : Tree}
    (hmem : t.label ∈ params.map argumentSymbol ++ comparisonSymbols returns)
    (ht : ∀ r, t.label = .rule r → r.isPlainFor t = true) : t.isBare = true := by
  rcases List.mem_append.1 hmem with hargument | hcomparison
  · obtain ⟨param, _, hlabel⟩ := List.mem_map.1 hargument
    cases param with
    | state => exact Tree.isBare_of_terminal hlabel.symm
    | action => exact Tree.isBare_of_terminal hlabel.symm
    | choice kind => exact ht _ hlabel.symm
  · rw [comparisonSymbols] at hcomparison
    cases hclass : returns.kindClass with
    | boolean =>
      rw [hclass] at hcomparison
      cases hcomparison
    | numeric | enumerated =>
      rw [hclass] at hcomparison
      rcases List.mem_cons.1 hcomparison with hop | hvalue
      · exact ht _ hop
      · exact ht _ (List.mem_singleton.1 hvalue)

/-- One level: a tree is plain if its children are, and their labels are a sequence that may stand
below the rule. -/
theorem Rule.Expands.isPlainFor {ps : List Predicate} {c : Config} {r : Rule} {children : List Tree}
    (hexpands : r.Expands ps c (children.map Tree.label))
    (hchildren : ∀ t ∈ children, ∀ r, t.label = .rule r → r.isPlainFor t = true) (id : NodeId) :
    r.isPlainFor (.node id (.rule r) children) = true := by
  cases r with
  | start =>
    obtain ⟨count, hlabels⟩ := hexpands
    show children.all Tree.isPlainBlock = true
    exact List.all_eq_true.2 (Tree.forall_of_replicate hchildren hlabels)
  | block =>
    obtain ⟨a, b, rfl, hcondition, hbody⟩ := Tree.exists_both hchildren hexpands
    rw [Rule.isPlainFor] at hcondition
    rw [Rule.isPlainFor] at hbody
    show (a.hasBareCalls && b.isBareAdjustment) = true
    rw [hcondition, hbody]
    rfl
  | body =>
    obtain ⟨a, rfl, hadjustment⟩ := Tree.exists_only hchildren hexpands
    rw [Rule.isPlainFor] at hadjustment
    rw [Rule.isPlainFor, Tree.isBareAdjustment_only rfl, hadjustment]
  | condition =>
    obtain ⟨form, hlabels, hform⟩ := hexpands.exists_form
    obtain ⟨a, rfl, ha⟩ := Tree.exists_only hchildren hlabels
    have hcalls : a.hasBareCalls = true := by
      rcases hform with rfl | rfl | rfl | rfl <;> exact ha
    rw [Rule.isPlainFor, Tree.hasBareCalls_only (by intro i hi; cases hi), hcalls]
  | conjunction | disjunction =>
    obtain ⟨a, b, rfl, hleft, hright⟩ := Tree.exists_both hchildren hexpands
    rw [Rule.isPlainFor] at hleft hright
    rw [Rule.isPlainFor, Tree.hasBareCalls_both (by intro i hi; cases hi), hleft, hright]
    rfl
  | negation | atom =>
    obtain ⟨a, rfl, hinner⟩ := Tree.exists_only hchildren hexpands
    rw [Rule.isPlainFor] at hinner
    rw [Rule.isPlainFor, Tree.hasBareCalls_only (by intro i hi; cases hi), hinner]
  | call =>
    obtain ⟨i, _, hlabels⟩ := hexpands
    obtain ⟨a, rfl, hinner⟩ := Tree.exists_only hchildren hlabels
    rw [Rule.isPlainFor] at hinner
    rw [Rule.isPlainFor, Tree.hasBareCalls_only (by intro i hi; cases hi), hinner]
  | adjustment =>
    rw [Rule.isPlainFor, Tree.isBareAdjustment]
  | amount => rfl
  | numericComparator | enumComparator =>
    obtain ⟨op, _, hlabels⟩ := hexpands
    obtain ⟨a, rfl, ha⟩ := Tree.map_label_eq_one hlabels
    exact Tree.isBare_only_of_terminal rfl ha id
  | literal kind =>
    obtain ⟨value, _, hlabels⟩ := hexpands
    obtain ⟨a, rfl, ha⟩ := Tree.map_label_eq_one hlabels
    exact Tree.isBare_only_of_terminal rfl ha id
  | predicate i =>
    obtain ⟨p, _, hlabels⟩ := hexpands
    rw [callSymbols] at hlabels
    obtain ⟨head, rest, rfl, _, hrest⟩ := List.map_eq_cons_iff.1 hlabels
    rw [Rule.isPlainFor, Tree.hasBareCalls, List.all_eq_true]
    intro t ht
    have hmem := List.mem_map_of_mem (f := Tree.label) ht
    rw [hrest] at hmem
    exact isBare_of_mem_call hmem (hchildren t (List.mem_cons_of_mem _ ht))

theorem Grammar.Built.isPlainFor {ps : List Predicate} {c : Config} {g : Grammar}
    (h : Built ps c g) {t : Tree} (ht : g.Derives t) :
    ∀ r, t.label = .rule r → r.isPlainFor t = true := by
  induction ht with
  | terminal id term =>
    intro r hr
    cases hr
  | rule id hp hyields _ ih =>
    intro r hr
    cases hr
    exact Rule.Expands.isPlainFor (h.expands hp hyields) ih id

/-- Generated scripts are plain. -/
theorem Generator.Made.isPlain_of_generate {S A σ : Type} {catalog : Catalog S A} {config : Config}
    {g : Generator S A} (h : Made catalog config g) {stream rest : Stream σ} {script : Script S A}
    (hgenerate : g.generate stream = .done script rest) : script.tree.isPlain = true := by
  obtain ⟨_, _, hexpand, _⟩ := generate_eq_done hgenerate
  have hgrown := Grammar.expand_spec hexpand
  exact h.built.isPlainFor hgrown.derives .start hgrown.label_eq

end ScoreScript
