import ScoreScript.Proofs.Cache.Listing
import ScoreScript.Proofs.Cache.Payload
import ScoreScript.Proofs.Evaluation.Soundness

/-!
# Storing and loading

A generated script that is stored and loaded, by its own generator or by another one over the same
declarations, comes back as it was, provided that it is within the limits and the range of the
generator that loads it.

* `Tree.compile_eq_ok_iff_of_compile` — compiling once more, with another range;
* `Generator.readTree_toBytes` — the tree read from the bytes of a script;
* `Generator.load_toBytes` — the script loaded from them.
-/

namespace ScoreScript

/-! ### Another range -/

theorem Tree.compileBlock_eq_ok_iff_of_compileBlock {ps : List Predicate} {range : Int} {t : Tree}
    {block : Block} (h : t.compileBlock ps range = .ok block) (range' : Int) (block' : Block) :
    t.compileBlock ps range' = .ok block' ↔ block' = block ∧ (block.delta.natAbs : Int) ≤ range' := by
  unfold Tree.compileBlock at h ⊢
  split at h
  · rename_i id condition body
    obtain ⟨x, hx, h⟩ := Result.bind_eq_ok_iff.1 h
    obtain ⟨delta, hdelta, h⟩ := Result.bind_eq_ok_iff.1 h
    have hblock := (Result.pure_eq_ok_iff.1 h).symm
    obtain ⟨hinteger, hne, _, _⟩ := Tree.compileDelta_eq_ok_iff.1 hdelta
    subst hblock
    constructor
    · intro h'
      obtain ⟨x', hx', h'⟩ := Result.bind_eq_ok_iff.1 h'
      obtain ⟨delta', hdelta', h'⟩ := Result.bind_eq_ok_iff.1 h'
      obtain ⟨hinteger', _, hlo, hhi⟩ := Tree.compileDelta_eq_ok_iff.1 hdelta'
      rw [hx] at hx'
      rw [hinteger] at hinteger'
      cases hx'
      cases hinteger'
      refine ⟨(Result.pure_eq_ok_iff.1 h').symm, ?_⟩
      show (delta.natAbs : Int) ≤ range'
      omega
    · intro hsame
      obtain ⟨rfl, hrange⟩ := hsame
      have hrange : (delta.natAbs : Int) ≤ range' := hrange
      have hdelta' : body.compileDelta range' = .ok delta :=
        Tree.compileDelta_eq_ok_iff.2 ⟨hinteger, hne, by omega, by omega⟩
      rw [hx, hdelta']
      rfl
  · exact absurd h (by simp)

/-- A tree that compiles also compiles with another range that none of its adjustments exceeds, and
with no other one. -/
theorem Tree.compile_eq_ok_iff_of_compile {ps : List Predicate} {range : Int} {t : Tree}
    {blocks : List Block} (h : t.compile ps range = .ok blocks) (range' : Int)
    (blocks' : List Block) :
    t.compile ps range' = .ok blocks' ↔
      blocks' = blocks ∧ ∀ b ∈ blocks, (b.delta.natAbs : Int) ≤ range' := by
  have hone : ∀ t b, Tree.compileBlock ps range t = .ok b → ∀ b',
      Tree.compileBlock ps range' t = .ok b' ↔ b' = b ∧ (b.delta.natAbs : Int) ≤ range' :=
    fun t b hb b' => Tree.compileBlock_eq_ok_iff_of_compileBlock hb range' b'
  unfold Tree.compile at h ⊢
  split at h
  · exact Result.mapM_eq_ok_iff_of hone h blocks'
  · obtain ⟨block, hblock, h⟩ := Result.bind_eq_ok_iff.1 h
    rw [← Result.pure_eq_ok_iff.1 h, Result.bind_eq_ok_iff, List.forall_mem_singleton]
    constructor
    · intro hcompiled
      obtain ⟨block', hblock', h'⟩ := hcompiled
      obtain ⟨rfl, hrange⟩ := (hone _ _ hblock _).1 hblock'
      exact ⟨(Result.pure_eq_ok_iff.1 h').symm, hrange⟩
    · intro hsame
      obtain ⟨rfl, hrange⟩ := hsame
      exact ⟨block, (hone _ _ hblock _).2 ⟨rfl, hrange⟩, rfl⟩
  · exact absurd h (by simp)
  · exact absurd h (by simp)

/-! ### Bytes of scripts -/

theorem Grammar.Built.wellLabelled {ps : List Predicate} {c : Config} {g : Grammar}
    (h : Built ps c g) {t : Tree} (ht : g.Derives t) : t.WellLabelled ps.length := by
  induction ht with
  | terminal id term =>
    refine .node id ?_ (fun _ _ => rfl) (fun _ hchild => absurd hchild List.not_mem_nil)
    intro index hindex
    cases hindex
  | @rule id r p children hp hyields _ ih =>
    refine .node id ?_ ?_ ih
    · intro index hindex
      cases hindex
      obtain ⟨p', hp', _⟩ := h.expands hp hyields
      exact (List.getElem?_eq_some_iff.1 hp').1
    · intro term hterm
      cases hterm

theorem Payload.le_cost (p : Payload) : 8 * p.listing.length ≤ p.cost := by
  have hsum : 8 * p.listing.length ≤ (p.listing.map entryCost).sum := by
    induction p.listing with
    | nil => exact Nat.le_refl 0
    | cons entry rest ih =>
      have hlabel : 4 ≤ entry.label.cost := by
        cases entry.label <;> simp only [StoredLabel.cost] <;> omega
      have harity : 4 ≤ Field.numberCost 4 entry.arity := by
        rw [Field.numberCost]
        split <;> omega
      rw [List.length_cons, List.map_cons, List.sum_cons, entryCost]
      omega
  rw [cost]
  omega

/-- A tree within the budget has so few nodes that no number of children is cut off. -/
theorem Payload.nodes_lt_of_cost_le {ps : List Predicate} {t : Tree}
    (hcost : (ofTree ps t).cost ≤ budget) : t.nodes < 2 ^ (32 : Nat) := by
  have hle := le_cost (ofTree ps t)
  have hlength : (ofTree ps t).listing.length = t.nodes := Listing.ofTree_length t
  have hbudget : budget = 2 ^ (24 : Nat) := rfl
  omega

theorem Payload.toTree_ofTree {ps : List Predicate} {t : Tree} (h : t.Storable ps.length)
    (limits : Limits) (t' : Tree) :
    (Payload.ofTree ps t).toTree ps limits = .ok t' ↔
      t' = t.numbered 0 ∧ t.levels ≤ limits.depth ∧ t.nodes ≤ limits.nodes := by
  have hcount : ¬ (Payload.ofTree ps t).listing.length ≠ (Payload.ofTree ps t).nodes := by
    rw [not_not]
    show (Listing.ofTree t).length = t.size
    rw [Listing.ofTree_length, Tree.size_eq_nodes]
  have hdigest : ¬ (Payload.ofTree ps t).digest ≠ catalogDigest ps := not_not_intro rfl
  have hlisting : (Payload.ofTree ps t).listing = .ofTree t := rfl
  rw [Payload.toTree, if_neg hdigest, if_neg hcount, hlisting, Listing.toTree_ofTree h]
  by_cases hnodes : limits.nodes < t.nodes
  · simp only [if_pos hnodes, reduceCtorEq, false_iff]
    intro hwithin
    obtain ⟨_, _, hle⟩ := hwithin
    omega
  · by_cases hlevels : t.levels ≤ limits.depth
    · simp only [if_neg hnodes, if_pos hlevels, Except.ok.injEq]
      exact ⟨fun h => ⟨h.symm, hlevels, by omega⟩, fun h => h.1.symm⟩
    · simp only [if_neg hnodes, if_neg hlevels, reduceCtorEq, false_iff]
      intro hwithin
      obtain ⟨_, hle, _⟩ := hwithin
      exact hlevels hle

namespace Generator

variable {S A : Type}

/-- Within the budget, the tree read from the bytes of a script is that of its payload. -/
theorem readTree_toBytes_eq {g : Generator S A} {script : Script S A} {ps : List Predicate}
    (hscript : script.catalog.predicates = ps) (hg : g.catalog.predicates = ps)
    (hcost : (Payload.ofTree ps script.tree).cost ≤ Payload.budget) :
    g.readTree script.toBytes = (Payload.ofTree ps script.tree).toTree ps g.config.limits := by
  have hdigest : (Payload.ofTree ps script.tree).digest.length = 32 := Blake3.hash_length _
  have hunpack : Envelope.unpack script.toBytes = .ok (Payload.ofTree ps script.tree).write := by
    rw [Script.toBytes, hscript]
    exact Envelope.unpack_pack (Payload.length_write_lt hdigest hcost)
  have hread : Payload.read.run Payload.budget (Payload.ofTree ps script.tree).write =
      some (Payload.ofTree ps script.tree) := by
    rw [Payload.run_read_write hdigest (by decide), if_pos hcost]
  rw [readTree, hunpack]
  simp only [hread, hg]

/-- Within the budget, the bytes of a script are read as its tree, numbered in preorder, when the
tree is within the limits, and not at all otherwise. -/
theorem readTree_toBytes {g : Generator S A} {script : Script S A} {ps : List Predicate}
    (hscript : script.catalog.predicates = ps) (hg : g.catalog.predicates = ps)
    (hstorable : script.tree.Storable ps.length)
    (hcost : (Payload.ofTree ps script.tree).cost ≤ Payload.budget) (t : Tree) :
    g.readTree script.toBytes = .ok t ↔
      t = script.tree.numbered 0 ∧ script.tree.levels ≤ g.config.limits.depth ∧
        script.tree.nodes ≤ g.config.limits.nodes := by
  rw [readTree_toBytes_eq hscript hg hcost]
  exact Payload.toTree_ofTree hstorable g.config.limits t

/-- The bytes of a script whose tree is numbered in preorder are loaded as that script, by a
generator over the same declarations, when it is within the limits and the range. -/
theorem load_toBytes_eq_ok_iff {g : Generator S A} {script : Script S A} {ps : List Predicate}
    {range : Int} (hscript : script.catalog.predicates = ps) (hg : g.catalog.predicates = ps)
    (hstorable : script.tree.Storable ps.length) (hnumbered : script.tree.numbered 0 = script.tree)
    (hrender : script.tree.render = .ok script.source)
    (hcompile : script.tree.compile ps range = .ok script.blocks)
    (hcost : (Payload.ofTree ps script.tree).cost ≤ Payload.budget) (loaded : Script S A) :
    g.load script.toBytes = .ok loaded ↔
      (script.tree.depth ≤ g.config.limits.depth ∧ script.tree.size ≤ g.config.limits.nodes ∧
        ∀ b ∈ script.blocks, (b.delta.natAbs : Int) ≤ g.grammar.scoreRange) ∧
        loaded = { script with catalog := g.catalog } := by
  rw [Tree.depth_eq_levels, Tree.size_eq_nodes, load_eq_ok_iff]
  constructor
  · intro hread
    obtain ⟨t, ht, hloaded⟩ := hread
    obtain ⟨rfl, hlevels, hnodes⟩ := (readTree_toBytes hscript hg hstorable hcost t).1 ht
    rw [hnumbered] at hloaded
    obtain ⟨htree, hcatalog, hsource, hblocks⟩ :=
      Script.assemble_eq_ok_iff.1 (compileTree_eq_ok_iff.1 hloaded).2
    rw [hg, Tree.compile_eq_ok_iff_of_compile hcompile] at hblocks
    rw [hrender] at hsource
    refine ⟨⟨hlevels, hnodes, hblocks.2⟩, ?_⟩
    obtain ⟨tree, source, blocks, catalog⟩ := loaded
    obtain rfl := htree
    obtain rfl := hcatalog
    obtain rfl := hblocks.1
    obtain rfl := Except.ok.inj hsource
    rfl
  · intro hwithin
    obtain ⟨⟨hlevels, hnodes, hrange⟩, rfl⟩ := hwithin
    refine ⟨script.tree, (readTree_toBytes hscript hg hstorable hcost _).2
      ⟨hnumbered.symm, hlevels, hnodes⟩, compileTree_eq_ok_iff.2 ⟨?_, ?_⟩⟩
    · exact Tree.checkLimits_eq_ok_iff.2 ⟨hlevels, hnodes⟩
    · refine Script.assemble_eq_ok_iff.2 ⟨rfl, rfl, hrender, ?_⟩
      rw [hg, Tree.compile_eq_ok_iff_of_compile hcompile]
      exact ⟨rfl, hrange⟩

/-- **Storing and loading.**  The bytes of a generated script that fit into the budget are loaded, by
a generator over the same declarations, exactly when the script is within its limits and its range.
What is loaded is the script: the same tree with the same numbers, the same text, the same blocks;
where the predicates answer alike, it scores alike.  A script's own generator always loads it. -/
theorem load_toBytes {σ : Type} {catalog catalog' : Catalog S A} {config config' : Config}
    {g g' : Generator S A} (hmake : make catalog config = .ok g)
    (hmake' : make catalog' config' = .ok g') (hpredicates : catalog.predicates = catalog'.predicates)
    {stream rest : Stream σ} {script : Script S A} (hscript : g.generate stream = .done script rest)
    (hcost : (Payload.ofTree catalog.predicates script.tree).cost ≤ Payload.budget) :
    ((∃ loaded, g'.load script.toBytes = .ok loaded) ↔
      script.tree.depth ≤ config'.limits.depth ∧ script.tree.size ≤ config'.limits.nodes ∧
        ∀ b ∈ script.blocks, (b.delta.natAbs : Int) ≤ g'.grammar.scoreRange) ∧
    (∀ loaded, g'.load script.toBytes = .ok loaded →
      loaded.tree = script.tree ∧ loaded.source = script.source ∧ loaded.blocks = script.blocks ∧
        ∀ s : S, (∀ a : A, catalog.answers s a = catalog'.answers s a) →
          (∀ a : A, loaded.score s a = script.score s a ∧ loaded.trace s a = script.trace s a) ∧
            ∀ candidates : List A, loaded.report s candidates = script.report s candidates) ∧
    g.load script.toBytes = .ok script := by
  have hmade := make_eq_ok hmake
  have hmade' := make_eq_ok hmake'
  obtain ⟨start, mid, hexpand, hassemble⟩ := generate_eq_done hscript
  have hgrown := Grammar.expand_spec hexpand
  obtain ⟨_, hcatalog, hrender, hcompile⟩ := Script.assemble_eq_ok_iff.1 hassemble
  rw [hmade.catalog_eq] at hcatalog hcompile
  have hps : script.catalog.predicates = catalog.predicates := by rw [hcatalog]
  have hstorable := (hmade.built.wellLabelled hgrown.derives).storable
    (Payload.nodes_lt_of_cost_le hcost)
  have hload : ∀ (g' : Generator S A), g'.catalog.predicates = catalog.predicates → ∀ loaded,
      g'.load script.toBytes = .ok loaded ↔
        (script.tree.depth ≤ g'.config.limits.depth ∧ script.tree.size ≤ g'.config.limits.nodes ∧
          ∀ b ∈ script.blocks, (b.delta.natAbs : Int) ≤ g'.grammar.scoreRange) ∧
          loaded = { script with catalog := g'.catalog } :=
    fun g' hg' => load_toBytes_eq_ok_iff hps hg' hstorable hgrown.numbered_eq hrender hcompile hcost
  refine ⟨?_, ?_, ?_⟩
  · have hg' := hload g' (by rw [hmade'.catalog_eq, hpredicates])
    rw [hmade'.config_eq] at hg'
    constructor
    · intro hloads
      obtain ⟨loaded, hloaded⟩ := hloads
      exact ((hg' loaded).1 hloaded).1
    · intro hwithin
      exact ⟨_, (hg' _).2 ⟨hwithin, rfl⟩⟩
  · intro loaded hloaded
    obtain ⟨_, rfl⟩ := (hload g' (by rw [hmade'.catalog_eq, hpredicates]) loaded).1 hloaded
    refine ⟨rfl, rfl, rfl, ?_⟩
    intro s hanswers
    have hscore : ∀ a, Script.score { script with catalog := g'.catalog } s a = script.score s a := by
      intro a
      rw [Script.score, Script.score, hcatalog, hmade'.catalog_eq, hanswers a]
    refine ⟨fun a => ⟨hscore a, ?_⟩, ?_⟩
    · rw [Script.trace, Script.trace, hscore a]
    · intro candidates
      rw [Script.report, Script.report, funext hscore]
  · refine (hload g (by rw [hmade.catalog_eq]) script).2 ⟨⟨?_, ?_, ?_⟩, ?_⟩
    · rw [Tree.depth_eq_levels]
      exact hgrown.levels_le
    · rw [Tree.size_eq_nodes]
      exact hgrown.after_le
    · intro b hb
      have hb' := Accepts.wellTyped (.generated hscript) b hb
      have hlo := hb'.neg_le
      have hhi := hb'.le
      omega
    · rw [hmade.catalog_eq, ← hcatalog]

/-- The script of the small words fits into the budget. -/
theorem stored_small :
    ∃ g script rest, make Catalog.small .default = .ok g ∧
      g.generate (.start WordSource.small 0 100) = .done script rest ∧
      (Payload.ofTree Catalog.small.predicates script.tree).cost ≤ Payload.budget := by
  obtain ⟨g, script, rest, hg, hrun, hcheap⟩ :=
    exists_generated Catalog.small .default (.start WordSource.small 0 100)
      (fun _ script _ =>
        (Payload.ofTree Catalog.small.predicates script.tree).cost ≤ Payload.budget)
      (by decide +kernel)
  exact ⟨g, script, rest, hg, hrun, of_decide_eq_true hcheap⟩

/-- The generator of the script of the small words loads it. -/
theorem load_toBytes_small :
    ∃ g script rest, make Catalog.small .default = .ok g ∧
      g.generate (.start WordSource.small 0 100) = .done script rest ∧
      (Payload.ofTree Catalog.small.predicates script.tree).cost ≤ Payload.budget ∧
      g.load script.toBytes = .ok script := by
  obtain ⟨g, script, rest, hg, hrun, hcheap⟩ := stored_small
  exact ⟨g, script, rest, hg, hrun, hcheap, (load_toBytes hg hg rfl hrun hcheap).2.2⟩

end Generator

end ScoreScript
