import ScoreScript.Proofs.Cache.Delimiting
import ScoreScript.Proofs.Evaluation.Equivariance
import ScoreScript.Proofs.Tree.Subtrees

/-!
# The stored form is canonical

Scripts of one catalog are stored in the same way exactly if their trees are alike.  The bytes tell
the entries of the listing, for all fields delimit themselves; the entries tell the labels and the
numbers of children, where these are kept in full; and labels in preorder with numbers of children
tell the tree but for the numbers of its nodes.  Nothing of this needs a tree that can be loaded
again.

* `StoredLabel.ofSymbol_injective` — labels;
* `Payload.eq_of_write_eq`, `Envelope.pack_injective` — payloads and envelopes;
* `Listing.ofTree_inj` — trees;
* `Script.toBytes_eq_iff_alike` — scripts.
-/

namespace ScoreScript

/-! ### Labels -/

/-- A number of predicates that leaves room for a stored rule. -/
def StoredRule.room : StoredRule → Nat
  | predicate index => index + 1
  | _ => 0

/-- A rule can be told from its stored form. -/
theorem StoredRule.ofRule_injective : Function.Injective ofRule := by
  have hresolve : ∀ r : Rule, (ofRule r).resolve (ofRule r).room = .ok r := by
    intro r
    apply resolve_ofRule
    intro index hr
    rw [hr]
    exact Nat.lt_succ_self index
  intro r r' h
  have hr := hresolve r
  rw [h, hresolve] at hr
  exact (Except.ok.inj hr).symm

/-- A label can be told from its stored form. -/
theorem StoredLabel.ofSymbol_injective : Function.Injective ofSymbol := by
  intro s s' h
  match s, s', h with
  | .rule r, .rule r', h => exact congrArg Symbol.rule (StoredRule.ofRule_injective (rule.inj h))
  | .terminal (.name _), .terminal (.name _), rfl => rfl
  | .terminal .state, .terminal .state, _ => rfl
  | .terminal .action, .terminal .action, _ => rfl
  | .terminal (.op _), .terminal (.op _), rfl => rfl
  | .terminal (.value v), .terminal (.value v'), h =>
    rw [StoredLiteral.ofLiteral_injective (value.inj h)]

/-! ### Trees -/

/-- The numbers of children are kept in full. -/
def Tree.Counted (t : Tree) : Prop :=
  ∀ u ∈ t.preorder, u.children.length < 2 ^ (32 : Nat)

theorem Tree.counted_node {id : NodeId} {label : Symbol} {children : List Tree} :
    (node id label children).Counted ↔
      children.length < 2 ^ (32 : Nat) ∧ ∀ child ∈ children, child.Counted := by
  unfold Counted
  constructor
  · intro h
    refine ⟨h _ (mem_preorder_node.2 (.inl rfl)), fun child hchild u hu => ?_⟩
    exact h u (mem_preorder_node.2 (.inr ⟨child, hchild, hu⟩))
  · rintro ⟨hlength, hchildren⟩ u hu
    rcases mem_preorder_node.1 hu with rfl | ⟨child, hchild, hu⟩
    · exact hlength
    · exact hchildren child hchild u hu

/-- A tree has no more children below a node than it has nodes. -/
theorem Tree.counted_of_nodes_lt {t : Tree} (h : t.nodes < 2 ^ (32 : Nat)) : t.Counted := by
  intro u hu
  have hnodes := nodes_le_of_mem_preorder hu
  have hlength := length_le_nodesAll u.children
  rw [nodes_children u] at hnodes
  omega

namespace Listing

/-- As many listings as are known to be there tell their trees, if each of them does. -/
theorem ofTrees_inj_of {ts us : List Tree} {rest rest' : Listing}
    (hts : ∀ t ∈ ts, ∀ u ∈ us, ∀ {rest rest'}, ofTree t ++ rest = ofTree u ++ rest' →
      t.unnumbered = u.unnumbered ∧ rest = rest')
    (hlength : ts.length = us.length) (h : ofTrees ts ++ rest = ofTrees us ++ rest') :
    ts.map Tree.unnumbered = us.map Tree.unnumbered ∧ rest = rest' := by
  induction ts generalizing us with
  | nil =>
    obtain rfl := List.length_eq_zero_iff.1 hlength.symm
    exact ⟨rfl, h⟩
  | cons t ts ih =>
    cases us with
    | nil => cases hlength
    | cons u us =>
      have hsplit : ∀ (t : Tree) (ts : List Tree) (rest : Listing),
          ofTrees (t :: ts) ++ rest = ofTree t ++ (ofTrees ts ++ rest) :=
        fun t ts rest => List.append_assoc _ _ _
      rw [hsplit, hsplit] at h
      obtain ⟨hfirst, hmore⟩ := hts t List.mem_cons_self u List.mem_cons_self h
      have hts' : ∀ t ∈ ts, ∀ u ∈ us, ∀ {rest rest'}, ofTree t ++ rest = ofTree u ++ rest' →
          t.unnumbered = u.unnumbered ∧ rest = rest' := fun t ht u hu =>
        hts t (List.mem_cons_of_mem _ ht) u (List.mem_cons_of_mem _ hu)
      obtain ⟨hrest, htail⟩ := ih hts' (Nat.succ.inj hlength) hmore
      rw [List.map_cons, List.map_cons, hfirst, hrest]
      exact ⟨rfl, htail⟩

/-- The listing of a tree, with anything behind it, tells the tree but for its numbers. -/
theorem ofTree_inj {t u : Tree} (ht : t.Counted) (hu : u.Counted) {rest rest' : Listing}
    (h : ofTree t ++ rest = ofTree u ++ rest') : t.unnumbered = u.unnumbered ∧ rest = rest' := by
  induction t using Tree.children_induction generalizing u rest rest' with
  | node id label children ih =>
    obtain ⟨id', label', children'⟩ := u
    obtain ⟨hlength, hchildren⟩ := Tree.counted_node.1 ht
    obtain ⟨hlength', hchildren'⟩ := Tree.counted_node.1 hu
    rw [ofTree_node, ofTree_node, List.cons_append, List.cons_append] at h
    obtain ⟨hentry, hmore⟩ := List.cons.inj h
    obtain ⟨hlabel, harity⟩ := ListingEntry.mk.inj hentry
    rw [Nat.mod_eq_of_lt hlength, Nat.mod_eq_of_lt hlength'] at harity
    obtain ⟨hbelow, hrest⟩ := ofTrees_inj_of
      (fun t ht u hu => ih t ht (hchildren t ht) (hchildren' u hu)) harity hmore
    have hbelow : children.map (Tree.mapIds fun _ => 0) = children'.map (Tree.mapIds fun _ => 0) :=
      hbelow
    rw [Tree.unnumbered, Tree.unnumbered, Tree.mapIds_node, Tree.mapIds_node,
      StoredLabel.ofSymbol_injective hlabel, hbelow]
    exact ⟨rfl, hrest⟩

end Listing

/-! ### Bytes -/

/-- Payloads over one catalog can be told from their bytes. -/
theorem Payload.eq_of_write_eq {p q : Payload} (hdigest : p.digest = q.digest)
    (h : p.write = q.write) : p = q := by
  obtain ⟨nodes, digest, listing⟩ := p
  obtain ⟨nodes', digest', listing'⟩ := q
  obtain rfl : digest = digest' := hdigest
  simp only [write, List.append_assoc] at h
  obtain ⟨rfl, hmore⟩ := Field.delimits_writeNumber h
  obtain ⟨hlength, hentries⟩ := Field.delimits_writeNumber (List.append_cancel_left hmore)
  rw [← List.append_nil (listing.flatMap _), ← List.append_nil (listing'.flatMap _)] at hentries
  obtain ⟨rfl, _⟩ := delimits_writeEntry.flatMap hlength hentries
  rfl

/-- A payload can be told from its envelope. -/
theorem Envelope.pack_injective : Function.Injective pack := by
  intro payload payload' h
  rw [← drop_pack payload, h, drop_pack]

/-! ### Scripts -/

variable {S A S' A' : Type}

/-- **The stored form is canonical.**  Accepted scripts of generators with the same predicates, whose
trees have no more children below a node than are counted, are stored in the same way exactly if
their trees are alike. -/
theorem Script.toBytes_eq_iff_alike {g : Generator S A} {g' : Generator S' A'}
    {script : Script S A} {script' : Script S' A'}
    (h : g.Accepts script) (h' : g'.Accepts script')
    (hpredicates : g.catalog.predicates = g'.catalog.predicates)
    (hcounted : ∀ u ∈ script.tree.preorder, u.children.length < 2 ^ (32 : Nat))
    (hcounted' : ∀ u ∈ script'.tree.preorder, u.children.length < 2 ^ (32 : Nat)) :
    script.toBytes = script'.toBytes ↔ script.tree.alike script'.tree = true := by
  rw [Tree.alike_iff, toBytes, toBytes, h.catalog_eq, h'.catalog_eq, ← hpredicates]
  constructor
  · intro hbytes
    have hwrite := Envelope.pack_injective hbytes
    have hpayload : Payload.ofTree g.catalog.predicates script.tree =
        Payload.ofTree g.catalog.predicates script'.tree := Payload.eq_of_write_eq rfl hwrite
    have hlisting : Listing.ofTree script.tree ++ [] = Listing.ofTree script'.tree ++ [] :=
      congrArg (Payload.listing · ++ []) hpayload
    exact (Listing.ofTree_inj hcounted hcounted' hlisting).1
  · intro halike
    have hsame : ∀ t : Tree, Payload.ofTree g.catalog.predicates t =
        Payload.ofTree g.catalog.predicates t.unnumbered :=
      fun t => (Payload.ofTree_mapIds (fun _ => 0) _ t).symm
    rw [hsame, halike, ← hsame]

/-- A script with a node below a terminal, where no one looks. -/
def Tree.overgrown : Tree :=
  node 0 (.rule .start) [node 1 (.rule .block)
    [node 2 (.rule (.predicate 0))
      [node 3 (.terminal (.name "stab")) [], node 4 (.terminal .action) []],
      node 5 (.rule .adjustment) [node 6 (.terminal (.value (.int 3)))
        [node 7 (.terminal .state) []]]]]

/-- The overgrown script has the bytes of the same script with other numbers, and not those of a
script that differs in the position of its predicate and has nothing below the terminal. -/
theorem Script.toBytes_eq_iff_alike_overgrown :
    ∃ (g : Generator Unit Unit) (script script' other : Script Unit Unit),
      g.Accepts script ∧ g.Accepts script' ∧ g.Accepts other ∧ script.tree = .overgrown ∧
        script'.tree = Tree.overgrown.numbered 8 ∧ other.tree = .stray ∧
        script.toBytes = script'.toBytes ∧ script.toBytes ≠ other.toBytes := by
  obtain ⟨g, hg⟩ := Generator.make_small
  have haccepts : ∀ t, (Generator.make Catalog.small .default).toOption.any
      (fun g => (g.compileTree t).toOption.any fun _ => true) = true →
        ∃ script, g.Accepts script ∧ script.tree = t := by
    intro t ht
    obtain ⟨g', script, hg', hscript, _⟩ := Generator.exists_script _ _ _ ht
    obtain rfl : g' = g := Except.ok.inj (hg'.symm.trans hg)
    exact ⟨script, .compiled hscript, Generator.tree_eq_of_compileTree hscript⟩
  obtain ⟨script, hscript, htree⟩ := haccepts .overgrown (by decide +kernel)
  obtain ⟨script', hscript', htree'⟩ := haccepts (Tree.overgrown.numbered 8) (by decide +kernel)
  obtain ⟨other, hother, hstray⟩ := haccepts .stray (by decide +kernel)
  have hcounted : script.tree.Counted := Tree.counted_of_nodes_lt (by rw [htree]; decide)
  have hcounted' : script'.tree.Counted := Tree.counted_of_nodes_lt (by rw [htree']; decide)
  have hcounted'' : other.tree.Counted := Tree.counted_of_nodes_lt (by rw [hstray]; decide)
  refine ⟨g, script, script', other, hscript, hscript', hother, htree, htree', hstray, ?_, ?_⟩
  · apply (toBytes_eq_iff_alike hscript hscript' rfl hcounted hcounted').2
    rw [htree, htree']
    decide +kernel
  · intro hbytes
    have halike := (toBytes_eq_iff_alike hscript hother rfl hcounted hcounted'').1 hbytes
    rw [htree, hstray] at halike
    exact absurd halike (by decide +kernel)

end ScoreScript
