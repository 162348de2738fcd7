import ScoreScript.Proofs.Cache.RoundTrip
import ScoreScript.Proofs.Evaluation.Renumbering

/-!
# Which scripts come back from storage

Storing keeps every tree, but loading refuses two things that the compiler lets pass: a predicate
rule whose position is not in the catalog, for calls are found by name, and a terminal with
children, which no one looks at.  An accepted script within the budget comes back exactly when its
tree has neither.  Trees that grow from a grammar and trees that were loaded have neither; trees
from elsewhere may.

* `Listing.build_cons_eq_ok` — what going through one entry takes;
* `Listing.wellLabelled_of_entrySound` — the entries of a tree tell whether it is well-labelled;
* `Listing.wellLabelled_of_build` — trees that listings lead to are;
* `Generator.load_toBytes_iff_wellLabelled` — which accepted scripts come back, and as what.
-/

namespace ScoreScript

/-! ### Labels -/

/-- What stands for a fault or a value that is found, wrapped. -/
theorem orFault_map_eq_ok_iff {α β : Type} {fault : LabelFault} {found : Option α} {f : α → β}
    {b : β} : (orFault fault found).map f = .ok b ↔ ∃ a, found = some a ∧ f a = b := by
  rw [Result.map_eq_ok_iff]
  cases found with
  | none => simp [orFault]
  | some a => simp [orFault]

/-- A predicate rule that is found for a stored rule is within the catalog. -/
theorem StoredRule.lt_of_resolve {count index : Nat} {stored : StoredRule}
    (h : stored.resolve count = .ok (.predicate index)) : index < count := by
  cases stored with
  | plain position =>
    have hplain : ∀ r ∈ Rule.plain, r ≠ .predicate index := by simp [Rule.plain]
    exact absurd (Except.ok.inj h) (hplain _ (List.get_mem _ _))
  | literal name =>
    obtain ⟨kind, _, hkind⟩ := orFault_map_eq_ok_iff.1 h
    cases hkind
  | predicate i =>
    rw [resolve] at h
    split at h
    · rename_i hlt
      obtain rfl := Rule.predicate.inj (Except.ok.inj h)
      exact hlt
    · cases h

/-- A predicate rule that is found for a stored label is within the catalog. -/
theorem StoredLabel.lt_of_resolve {count index : Nat} {stored : StoredLabel}
    (h : stored.resolve count = .ok (.rule (.predicate index))) : index < count := by
  cases stored with
  | rule r =>
    obtain ⟨r', hr, hrule⟩ := Result.map_eq_ok_iff.1 h
    obtain rfl := Symbol.rule.inj hrule
    exact StoredRule.lt_of_resolve hr
  | value literal =>
    obtain ⟨value, _, hvalue⟩ := Result.map_eq_ok_iff.1 h
    cases hvalue
  | _ => cases h

namespace Listing

variable {count : Nat} {limits : Limits}

/-- What going through one entry takes: no tree is finished yet and the level is within the limit;
the entry has a label, and it either stands for a leaf, which is placed, or opens a rule. -/
theorem build_cons_eq_ok {index : Nat} {opened : List Frame} {root : Option Tree}
    {entry : ListingEntry} {rest : Listing} {t : Tree}
    (h : build count limits index opened root (entry :: rest) = .ok t) :
    root = none ∧ opened.length < limits.depth ∧ ∃ label, entry.label.resolve count = .ok label ∧
      ((entry.arity = 0 ∧
        build count limits (index + 1) (Frame.place (.node (UInt32.ofNat index) label []) opened).1
          (Frame.place (.node (UInt32.ofNat index) label []) opened).2 rest = .ok t) ∨
      ∃ waiting, entry.arity = waiting + 1 ∧ label.terminal? = none ∧
        build count limits (index + 1) (⟨UInt32.ofNat index, label, [], waiting⟩ :: opened) none
          rest = .ok t) := by
  rw [build] at h
  split at h
  · cases h
  rename_i hroot
  split at h
  · cases h
  rename_i hdepth
  refine ⟨Option.not_isSome_iff_eq_none.1 hroot, Nat.not_le.1 hdepth, ?_⟩
  cases hlabel : entry.label.resolve count with
  | error fault =>
    rw [hlabel] at h
    cases h
  | ok label =>
    rw [hlabel] at h
    refine ⟨label, rfl, ?_⟩
    cases harity : entry.arity with
    | zero =>
      simp only [harity] at h
      exact Or.inl ⟨rfl, h⟩
    | succ waiting =>
      simp only [harity] at h
      cases hterminal : label.terminal? with
      | none =>
        simp only [hterminal, Option.isSome_none] at h
        exact Or.inr ⟨waiting, rfl, rfl, h⟩
      | some term =>
        simp only [hterminal, Option.isSome_some, if_true] at h
        cases h

theorem build_of_toTree {listing : Listing} {t : Tree} (h : listing.toTree count limits = .ok t) :
    build count limits 0 [] none listing = .ok t := by
  rw [toTree] at h
  split at h
  · cases h
  · exact h

/-- The label of the entry is found, and below a terminal there is nothing. -/
def EntrySound (count : Nat) (entry : ListingEntry) : Prop :=
  ∃ label, entry.label.resolve count = .ok label ∧
    ∀ term, label = .terminal term → entry.arity = 0

/-- All entries of a listing that is gone through are sound. -/
theorem entrySound_of_build {index : Nat} {opened : List Frame} {root : Option Tree}
    {listing : Listing} {t : Tree} (h : build count limits index opened root listing = .ok t) :
    ∀ entry ∈ listing, EntrySound count entry := by
  induction listing generalizing index opened root with
  | nil => exact fun _ hentry => absurd hentry List.not_mem_nil
  | cons entry rest ih =>
    obtain ⟨_, _, label, hlabel, hleaf | hopen⟩ := build_cons_eq_ok h
    · obtain ⟨harity, hrest⟩ := hleaf
      exact List.forall_mem_cons.2 ⟨⟨label, hlabel, fun _ _ => harity⟩, ih hrest⟩
    · obtain ⟨waiting, _, hterminal, hrest⟩ := hopen
      refine List.forall_mem_cons.2 ⟨⟨label, hlabel, fun term hterm => ?_⟩, ih hrest⟩
      rw [hterm] at hterminal
      cases hterminal

/-- A tree whose entries are sound is well-labelled, if no number of children is cut off. -/
theorem wellLabelled_of_entrySound {t : Tree} (hnodes : t.nodes < 2 ^ (32 : Nat))
    (h : ∀ entry ∈ ofTree t, EntrySound count entry) : t.WellLabelled count := by
  induction t using Tree.children_induction with
  | node id label children ih =>
    have hlength := Tree.length_le_nodesAll children
    rw [Tree.nodes] at hnodes
    rw [ofTree_node, Nat.mod_eq_of_lt (by omega), List.forall_mem_cons] at h
    obtain ⟨⟨label', hlabel, harity⟩, hbelow⟩ := h
    refine .node id ?_ ?_ fun child hchild => ih child hchild ?_ ?_
    · intro index hindex
      subst hindex
      rw [StoredLabel.ofSymbol, StoredRule.ofRule, StoredLabel.resolve, StoredRule.resolve]
        at hlabel
      split at hlabel
      · assumption
      · cases hlabel
    · intro term hterm
      subst hterm
      rw [StoredLabel.resolve_ofSymbol (by intro index h; cases h)] at hlabel
      exact List.eq_nil_of_length_eq_zero (harity term (Except.ok.inj hlabel).symm)
    · have hle := Tree.nodes_le_nodesAll hchild
      omega
    · intro entry hentry
      exact hbelow entry (List.mem_flatMap.2 ⟨child, hchild, hentry⟩)

/-! ### Loaded trees -/

/-- An open node and what has been found below it are well-labelled, and it stands for a rule. -/
structure FrameSound (count : Nat) (f : Frame) : Prop where
  lt_of_predicate : ∀ index, f.label = .rule (.predicate index) → index < count
  ne_terminal : ∀ term, f.label ≠ .terminal term
  found : ∀ t ∈ f.found, t.WellLabelled count

theorem FrameSound.close {f : Frame} (h : FrameSound count f) {last : Tree}
    (hlast : last.WellLabelled count) : (f.close last).WellLabelled count := by
  refine .node f.id h.lt_of_predicate (fun term hterm => absurd hterm (h.ne_terminal term)) ?_
  intro child hchild
  rcases List.mem_cons.1 (List.mem_reverse.1 hchild) with rfl | hfound
  · exact hlast
  · exact h.found child hfound

/-- Placing a well-labelled tree keeps the open nodes sound, and the root it leads to is
well-labelled. -/
theorem place_sound {t : Tree} (ht : t.WellLabelled count) {opened : List Frame}
    (hopened : ∀ f ∈ opened, FrameSound count f) :
    (∀ f ∈ (Frame.place t opened).1, FrameSound count f) ∧
      ∀ root, (Frame.place t opened).2 = some root → root.WellLabelled count := by
  fun_induction Frame.place t opened with
  | case1 t => exact ⟨hopened, fun root hroot => Option.some.inj hroot ▸ ht⟩
  | case2 t f rest hwaiting ih =>
    obtain ⟨hf, hrest⟩ := List.forall_mem_cons.1 hopened
    exact ih (hf.close ht) hrest
  | case3 t f rest waiting hwaiting =>
    obtain ⟨hf, hrest⟩ := List.forall_mem_cons.1 hopened
    refine ⟨List.forall_mem_cons.2 ⟨⟨hf.lt_of_predicate, hf.ne_terminal, ?_⟩, hrest⟩, ?_⟩
    · exact List.forall_mem_cons.2 ⟨ht, hf.found⟩
    · intro root hroot
      cases hroot

/-- The tree that a listing leads to is well-labelled, from whichever listing it comes. -/
theorem wellLabelled_of_build {index : Nat} {opened : List Frame} {root : Option Tree}
    {listing : Listing} {t : Tree} (hopened : ∀ f ∈ opened, FrameSound count f)
    (hroot : ∀ t, root = some t → t.WellLabelled count)
    (h : build count limits index opened root listing = .ok t) : t.WellLabelled count := by
  induction listing generalizing index opened root with
  | nil =>
    cases root with
    | none => cases h
    | some t' =>
      obtain rfl : t' = t := Except.ok.inj h
      exact hroot t' rfl
  | cons entry rest ih =>
    obtain ⟨_, _, label, hlabel, hleaf | hopen⟩ := build_cons_eq_ok h
    · obtain ⟨_, hrest⟩ := hleaf
      have hleaf : (Tree.node (UInt32.ofNat index) label []).WellLabelled count :=
        .node _ (fun i hi => StoredLabel.lt_of_resolve (hi ▸ hlabel)) (fun _ _ => rfl)
          (fun _ hchild => absurd hchild List.not_mem_nil)
      obtain ⟨hopened', hroot'⟩ := place_sound hleaf hopened
      exact ih hopened' hroot' hrest
    · obtain ⟨waiting, _, hterminal, hrest⟩ := hopen
      refine ih (List.forall_mem_cons.2 ⟨⟨?_, ?_, ?_⟩, hopened⟩) (fun _ h => by cases h) hrest
      · intro i hi
        obtain rfl : label = .rule (.predicate i) := hi
        exact StoredLabel.lt_of_resolve hlabel
      · intro term hterm
        rw [show label = .terminal term from hterm] at hterminal
        cases hterminal
      · exact fun _ hchild => absurd hchild List.not_mem_nil

end Listing

/-! ### Scripts -/

/-- A tree has at least as many nodes as blocks. -/
theorem Tree.length_le_of_compile {ps : List Predicate} {range : Int} {t : Tree}
    {blocks : List Block} (h : t.compile ps range = .ok blocks) : blocks.length ≤ t.nodes := by
  unfold compile at h
  split at h
  · rename_i id ts
    have hlength := (Result.mapM_eq_ok_iff.1 h).length_eq
    have hle := length_le_nodesAll ts
    rw [nodes]
    omega
  · obtain ⟨block, _, h⟩ := Result.bind_eq_ok_iff.1 h
    rw [← Result.pure_eq_ok_iff.1 h]
    exact nodes_pos _
  · cases h
  · cases h

theorem Payload.wellLabelled_of_toTree {ps : List Predicate} {limits : Limits} {p : Payload}
    {t : Tree} (h : p.toTree ps limits = .ok t) :
    t.WellLabelled ps.length ∧ ∀ entry ∈ p.listing, Listing.EntrySound ps.length entry := by
  obtain ⟨_, _, hlisting⟩ := toTree_eq_ok_iff.1 h
  have hbuild := Listing.build_of_toTree hlisting
  exact ⟨Listing.wellLabelled_of_build (fun _ hf => absurd hf List.not_mem_nil)
    (fun _ hroot => by cases hroot) hbuild, Listing.entrySound_of_build hbuild⟩

namespace Generator

variable {S A : Type}

/-- The tree of every stored form that is read is well-labelled. -/
theorem wellLabelled_of_readTree {g : Generator S A} {bytes : List UInt8} {t : Tree}
    (h : g.readTree bytes = .ok t) : t.WellLabelled g.catalog.predicates.length := by
  obtain ⟨_, _, _, _, htree⟩ := readTree_eq_ok_iff.1 h
  exact (Payload.wellLabelled_of_toTree htree).1

/-- Loaded scripts are well-labelled. -/
theorem wellLabelled_of_load {g : Generator S A} {bytes : List UInt8} {script : Script S A}
    (h : g.load bytes = .ok script) : script.tree.WellLabelled g.catalog.predicates.length := by
  obtain ⟨t, hread, hcompile⟩ := load_eq_ok_iff.1 h
  rw [tree_eq_of_compileTree hcompile]
  exact wellLabelled_of_readTree hread

/-- Generated scripts are well-labelled. -/
theorem Made.wellLabelled_of_generate {σ : Type} {catalog : Catalog S A} {config : Config}
    {g : Generator S A} (h : Made catalog config g) {stream rest : Stream σ} {script : Script S A}
    (hgenerate : g.generate stream = .done script rest) :
    script.tree.WellLabelled catalog.predicates.length := by
  obtain ⟨_, _, hexpand, _⟩ := generate_eq_done hgenerate
  exact h.built.wellLabelled (Grammar.expand_spec hexpand).derives

/-- A script whose bytes are loaded is well-labelled itself. -/
theorem wellLabelled_of_load_toBytes {g : Generator S A} {script loaded : Script S A}
    {ps : List Predicate} (hscript : script.catalog.predicates = ps)
    (hg : g.catalog.predicates = ps)
    (hcost : (Payload.ofTree ps script.tree).cost ≤ Payload.budget)
    (h : g.load script.toBytes = .ok loaded) : script.tree.WellLabelled ps.length := by
  obtain ⟨t, hread, _⟩ := load_eq_ok_iff.1 h
  rw [readTree_toBytes_eq hscript hg hcost] at hread
  exact Listing.wellLabelled_of_entrySound (Payload.nodes_lt_of_cost_le hcost)
    (Payload.wellLabelled_of_toTree hread).2

/-- An accepted script whose tree is well-labelled and numbered in preorder comes back as it is. -/
theorem Accepts.load_eq {g : Generator S A} {script : Script S A} (h : g.Accepts script)
    (hwell : script.tree.WellLabelled g.catalog.predicates.length)
    (hnumbered : script.tree.numbered 0 = script.tree)
    (hcost : (Payload.ofTree g.catalog.predicates script.tree).cost ≤ Payload.budget) :
    g.load script.toBytes = .ok script := by
  have hscript : script.catalog.predicates = g.catalog.predicates := by rw [h.catalog_eq]
  have hstorable := hwell.storable (Payload.nodes_lt_of_cost_le hcost)
  have hlimits := Tree.checkLimits_eq_ok_iff.1 h.checkLimits_eq
  have hread : g.readTree script.toBytes = .ok script.tree :=
    (readTree_toBytes hscript rfl hstorable hcost _).2 ⟨hnumbered.symm, hlimits⟩
  exact load_eq_ok_iff.2 ⟨script.tree, hread, h.compileTree_eq⟩

/-- **Coming back from storage.**  The bytes of an accepted script that fit into the budget are
loaded by its generator exactly when its predicate rules are in the catalog and its terminals have
no children.  What is loaded differs in nothing but numbers: it has a tree that is alike, the same
text, and for every action it makes the same calls and comes to the same score or error. -/
theorem load_toBytes_iff_wellLabelled {catalog : Catalog S A} {config : Config} {g : Generator S A}
    (hmake : make catalog config = .ok g) {script : Script S A} (h : g.Accepts script)
    (hcost : (Payload.ofTree catalog.predicates script.tree).cost ≤ Payload.budget) :
    ((∃ loaded, g.load script.toBytes = .ok loaded) ↔
      script.tree.WellLabelled catalog.predicates.length) ∧
    ∀ loaded, g.load script.toBytes = .ok loaded →
      loaded.tree.alike script.tree = true ∧ loaded.source = script.source ∧
        ∀ (s : S) (a : A), (loaded.score s a).calls = (script.score s a).calls ∧
          (loaded.score s a).result = (script.score s a).result := by
  have hmade := make_eq_ok hmake
  have hg : g.catalog.predicates = catalog.predicates := by rw [hmade.catalog_eq]
  have hscript : script.catalog.predicates = catalog.predicates := by rw [h.catalog_eq, hg]
  have hnodes := Payload.nodes_lt_of_cost_le hcost
  have hwellLabelled : ∀ loaded, g.load script.toBytes = .ok loaded →
      script.tree.WellLabelled catalog.predicates.length :=
    fun _ hloaded => wellLabelled_of_load_toBytes hscript hg hcost hloaded
  have hread : script.tree.WellLabelled catalog.predicates.length →
      g.readTree script.toBytes = .ok (script.tree.numbered 0) := by
    intro hwell
    obtain ⟨hlevels, hsize⟩ := Tree.checkLimits_eq_ok_iff.1 h.checkLimits_eq
    exact (readTree_toBytes hscript hg (hwell.storable hnodes) hcost _).2 ⟨rfl, hlevels, hsize⟩
  obtain ⟨script', hscript', hsource, hblocks⟩ :=
    Script.assemble_of_unnumbered_eq h.assemble_eq (Tree.unnumbered_numbered 0 script.tree)
  have hcompile : g.compileTree (script.tree.numbered 0) = .ok script' := by
    refine compileTree_eq_ok_iff.2 ⟨?_, hscript'⟩
    have hlimits := Tree.checkLimits_eq_ok_iff.1 h.checkLimits_eq
    rwa [Tree.checkLimits_eq_ok_iff, Tree.levels_numbered, Tree.nodes_numbered]
  refine ⟨⟨fun hloads => hloads.elim hwellLabelled, fun hwell => ?_⟩, ?_⟩
  · exact ⟨script', load_eq_ok_iff.2 ⟨_, hread hwell, hcompile⟩⟩
  · intro loaded hloaded
    obtain ⟨t, ht, htcompile⟩ := load_eq_ok_iff.1 hloaded
    rw [hread (hwellLabelled loaded hloaded)] at ht
    obtain rfl := Except.ok.inj ht
    obtain rfl : script' = loaded := Except.ok.inj (hcompile.symm.trans htcompile)
    have htree : script'.tree = script.tree.numbered 0 :=
      (Script.assemble_eq_ok_iff.1 hscript').1
    have hsmall : script'.blocks.length * 8 < 2 ^ (63 : Nat) := by
      have hlength := Tree.length_le_of_compile (Script.assemble_eq_ok_iff.1 hscript').2.2.2
      rw [Tree.nodes_numbered] at hlength
      omega
    refine ⟨?_, hsource, fun s a => hmade.score_congr hmade (.loaded hloaded) h hblocks hsmall s a⟩
    rw [Tree.alike_iff, htree, Tree.unnumbered_numbered]

end Generator

/-- A script whose predicate rule has a position beyond the small catalog. -/
def Tree.stray : Tree :=
  node 0 (.rule .start) [node 1 (.rule .block)
    [node 2 (.rule (.predicate 7))
      [node 3 (.terminal (.name "stab")) [], node 4 (.terminal .action) []],
      node 5 (.rule .adjustment) [node 6 (.terminal (.value (.int 3))) []]]]

namespace Generator

/-- The script of the small words is loaded from its bytes, and the payload is short. -/
theorem reload_small :
    ∃ g script rest, make Catalog.small .default = .ok g ∧
      g.generate (.start WordSource.small 0 100) = .done script rest ∧
      (Payload.ofTree Catalog.small.predicates script.tree).cost ≤ Payload.budget ∧
      g.load script.toBytes = .ok script := by
  obtain ⟨g, script, rest, hg, hrun, hcheap⟩ := stored_small
  obtain ⟨_, _, hexpand, _⟩ := generate_eq_done hrun
  have hcatalog : g.catalog = Catalog.small := (make_eq_ok hg).catalog_eq
  have hwell := (make_eq_ok hg).wellLabelled_of_generate hrun
  have hnumbered := (Grammar.expand_spec hexpand).numbered_eq
  rw [← hcatalog] at hwell
  exact ⟨g, script, rest, hg, hrun, hcheap,
    Accepts.load_eq (.generated hrun) hwell hnumbered (hcatalog ▸ hcheap)⟩

/-- The script of the small words comes back. -/
theorem load_toBytes_iff_wellLabelled_small :
    ∃ g script loaded, make Catalog.small .default = .ok g ∧ g.Accepts script ∧
      (Payload.ofTree Catalog.small.predicates script.tree).cost ≤ Payload.budget ∧
      script.tree.WellLabelled Catalog.small.predicates.length ∧
      g.load script.toBytes = .ok loaded ∧ loaded.tree.alike script.tree = true ∧
      loaded.source = script.source := by
  obtain ⟨g, script, rest, hg, hrun, hcheap⟩ := stored_small
  have hwell := (make_eq_ok hg).wellLabelled_of_generate hrun
  obtain ⟨hloads, hsame⟩ := load_toBytes_iff_wellLabelled hg (.generated hrun) hcheap
  obtain ⟨loaded, hloaded⟩ := hloads.2 hwell
  obtain ⟨halike, hsource, _⟩ := hsame loaded hloaded
  exact ⟨g, script, loaded, hg, .generated hrun, hcheap, hwell, hloaded, halike, hsource⟩

/-- A script with a stray position is accepted and within the budget, but does not come back. -/
theorem load_toBytes_stray :
    ∃ g script, make Catalog.small .default = .ok g ∧ g.compileTree .stray = .ok script ∧
      (Payload.ofTree Catalog.small.predicates script.tree).cost ≤ Payload.budget ∧
      ∀ loaded, g.load script.toBytes ≠ .ok loaded := by
  obtain ⟨g, script, hg, hscript, _⟩ :=
    exists_script Catalog.small .stray (fun _ => true) (by decide +kernel)
  have htree := tree_eq_of_compileTree hscript
  have hcatalog : g.catalog = Catalog.small := (make_eq_ok hg).catalog_eq
  have hcheap : (Payload.ofTree Catalog.small.predicates script.tree).cost ≤ Payload.budget := by
    rw [htree]
    decide +kernel
  refine ⟨g, script, hg, hscript, hcheap, fun loaded hloaded => ?_⟩
  have hwell := wellLabelled_of_load_toBytes (by rw [(Accepts.compiled hscript).catalog_eq, hcatalog])
    (by rw [hcatalog]) hcheap hloaded
  rw [htree] at hwell
  cases hwell with
  | node _ _ _ hblocks =>
    cases hblocks _ List.mem_cons_self with
    | node _ _ _ hparts =>
      cases hparts _ List.mem_cons_self with
      | node _ hindex _ _ => exact absurd (hindex 7 rfl) (by decide)

end Generator

end ScoreScript
