import ScoreScript.Proofs.Script.Stability
import ScoreScript.Proofs.Tree.Subtrees

/-!
# Preorder listings

Reading a listing keeps a stack of open nodes, and one leaf may close several of them at once.  None of
this shows in the outcome.  A listing is read exactly if its numbers of children are those of some tree
in preorder, all of them and no others, and the labels and the limits allow it; then the tree that is
read has these labels and numbers of children.

* `Listing.Lists` — the labels and numbers of children of a tree, in preorder;
* `Listing.build_congr` — all that matters of an entry is its label, once found, and its number of
  children;
* `Listing.toTree_of_lists` — the listing of a tree within the limits is read as that tree;
* `Listing.exists_lists` — any labels can be put on a tree of a given shape;
* `Listing.Complete` — what it takes for a listing to be read, without the tree;
* `Listing.accepts_iff_preorder` — which listings are read, and as what.
-/

namespace ScoreScript

namespace Listing

variable {count : Nat} {limits : Limits}

/-! ### Entries and nodes -/

/-- The entry is for a node with this label and this number of children. -/
def EntryFor (count : Nat) (entry : ListingEntry) (t : Tree) : Prop :=
  entry.label.resolve count = .ok t.label ∧ entry.arity = t.children.length

/-- The entries are those for the nodes of the tree, in preorder. -/
def Lists (count : Nat) (listing : Listing) (t : Tree) : Prop :=
  List.Forall₂ (EntryFor count) listing t.preorder

theorem Lists.length_eq {listing : Listing} {t : Tree} (h : Lists count listing t) :
    listing.length = t.nodes := by
  rw [List.Forall₂.length_eq h, Tree.preorder_length]

theorem forall₂_entryFor_of_rows {index : Nat} {listing : Listing} {ts : List Tree}
    (h : ts.map Tree.row = listing.rows count index) : List.Forall₂ (EntryFor count) listing ts := by
  induction listing generalizing index ts with
  | nil =>
    obtain rfl := List.map_eq_nil_iff.1 h
    exact .nil
  | cons entry rest ih =>
    obtain ⟨t, ts, rfl, hrow, hrest⟩ := List.map_eq_cons_iff.1 h
    obtain ⟨_, hpair⟩ := Prod.mk.inj hrow
    obtain ⟨hlabel, harity⟩ := Prod.mk.inj hpair
    exact .cons ⟨hlabel.symm, harity.symm⟩ (ih hrest)

/-- The entries are those for the nodes of the tree that is read. -/
theorem lists_of_toTree {listing : Listing} {t : Tree} (h : listing.toTree count limits = .ok t) :
    Lists count listing t :=
  forall₂_entryFor_of_rows (rows_of_toTree h)

/-! ### Reading the listing of a tree -/

/-- The same label is found for both entries, and they have the same number of children. -/
def SameEntry (count : Nat) (entry entry' : ListingEntry) : Prop :=
  entry.label.resolve count = entry'.label.resolve count ∧ entry.arity = entry'.arity

/-- Entries that are the same in this sense are gone through in the same way. -/
theorem build_congr {listing listing' : Listing}
    (h : List.Forall₂ (SameEntry count) listing listing') (index : Nat) (opened : List Frame)
    (root : Option Tree) :
    build count limits index opened root listing =
      build count limits index opened root listing' := by
  induction h generalizing index opened root with
  | nil => rfl
  | cons hentry hrest ih =>
    obtain ⟨hlabel, harity⟩ := hentry
    simp only [build, hlabel, harity, hrest.length_eq, ih]

theorem entrySound_of_same {listing listing' : Listing}
    (h : List.Forall₂ (SameEntry count) listing listing')
    (hsound : ∀ entry ∈ listing, EntrySound count entry) :
    ∀ entry ∈ listing', EntrySound count entry := by
  induction h with
  | nil => exact hsound
  | cons hentry _ ih =>
    obtain ⟨hlabel, harity⟩ := hentry
    obtain ⟨⟨label, hfirst, hterminal⟩, hrest⟩ := List.forall_mem_cons.1 hsound
    rw [hlabel] at hfirst
    rw [harity] at hterminal
    exact List.forall_mem_cons.2 ⟨⟨label, hfirst, hterminal⟩, ih hrest⟩

/-- The entry for a node that stands in a listing has the label and the number of children that are
stored for the node. -/
theorem EntryFor.same_ofTree {entry : ListingEntry} {t : Tree} (h : EntryFor count entry t)
    (hnodes : t.nodes < 2 ^ (32 : Nat)) : SameEntry count entry (.ofTree t) := by
  obtain ⟨hlabel, harity⟩ := h
  have hlength : t.children.length < 2 ^ (32 : Nat) := by
    have := Tree.length_le_nodesAll t.children
    rw [Tree.nodes_children] at hnodes
    omega
  have hstored : (StoredLabel.ofSymbol t.label).resolve count = .ok t.label :=
    StoredLabel.resolve_ofSymbol fun index hindex => StoredLabel.lt_of_resolve (hindex ▸ hlabel)
  refine ⟨?_, ?_⟩
  · rw [ListingEntry.ofTree, hlabel, hstored]
  · rw [ListingEntry.ofTree, harity, Nat.mod_eq_of_lt hlength]

theorem Lists.same_ofTree {listing : Listing} {t : Tree} (h : Lists count listing t)
    (hnodes : t.nodes < 2 ^ (32 : Nat)) : List.Forall₂ (SameEntry count) listing (ofTree t) := by
  have hsmall : ∀ u ∈ t.preorder, u.nodes < 2 ^ (32 : Nat) :=
    fun u hu => Nat.lt_of_le_of_lt (Tree.nodes_le_of_mem_preorder hu) hnodes
  have hboth := (List.forall₂_and_left _ _).2 ⟨hsmall, h.flip⟩
  apply List.forall₂_map_right_iff.2
  exact hboth.flip.imp fun _ _ hentry => EntryFor.same_ofTree hentry.2 hentry.1

/-- The listing of a tree within the limits is read as that tree, its nodes numbered in preorder. -/
theorem toTree_of_lists {listing : Listing} {t : Tree} (h : Lists count listing t)
    (hlength : listing.length < 2 ^ (32 : Nat)) (hsound : ∀ entry ∈ listing, EntrySound count entry)
    (hnodes : listing.length ≤ limits.nodes) (hlevels : t.levels ≤ limits.depth) :
    listing.toTree count limits = .ok (t.numbered 0) := by
  rw [h.length_eq] at hlength hnodes
  have hsame := h.same_ofTree hlength
  have hbuild : listing.toTree count limits = (ofTree t).toTree count limits := by
    rw [toTree, toTree, hsame.length_eq, build_congr hsame]
  have hwell : t.WellLabelled count :=
    wellLabelled_of_entrySound hlength (entrySound_of_same hsame hsound)
  rw [hbuild, toTree_ofTree (hwell.storable hlength), if_neg (Nat.not_lt.2 hnodes), if_pos hlevels]

/-! ### Labels on a shape -/

mutual

/-- Any labels can be put on a tree of a given shape. -/
theorem exists_lists {t : Tree} {listing : Listing}
    (hshape : listing.map (·.arity) = t.preorder.map (·.children.length))
    (hlabels : ∀ entry ∈ listing, ∃ label, entry.label.resolve count = .ok label) :
    ∃ u, Lists count listing u ∧ u.levels = t.levels := by
  cases t with
  | node id label children =>
    rw [Tree.preorder_node, List.map_cons] at hshape
    obtain ⟨entry, rest, rfl, harity, hrest⟩ := List.map_eq_cons_iff.1 hshape
    obtain ⟨⟨label', hlabel⟩, hlabels⟩ := List.forall_mem_cons.1 hlabels
    obtain ⟨us, hus, hlength, hlevels⟩ := exists_listsAll hrest hlabels
    refine ⟨.node id label' us, ?_, ?_⟩
    · rw [Lists, Tree.preorder_node]
      exact .cons ⟨hlabel, harity.trans hlength.symm⟩ hus
    · rw [Tree.levels, Tree.levels, hlevels]

theorem exists_listsAll {ts : List Tree} {listing : Listing}
    (hshape : listing.map (·.arity) = (Tree.preorderAll ts).map (·.children.length))
    (hlabels : ∀ entry ∈ listing, ∃ label, entry.label.resolve count = .ok label) :
    ∃ us, List.Forall₂ (EntryFor count) listing (Tree.preorderAll us) ∧ us.length = ts.length ∧
      Tree.levelsAll us = Tree.levelsAll ts := by
  cases ts with
  | nil =>
    rw [Tree.preorderAll, List.map_nil, List.map_eq_nil_iff] at hshape
    subst hshape
    exact ⟨[], by rw [Tree.preorderAll]; exact .nil, rfl, rfl⟩
  | cons t rest =>
    rw [Tree.preorderAll_cons, List.map_append] at hshape
    obtain ⟨first, more, rfl, hfirst, hmore⟩ := List.map_eq_append_iff.1 hshape
    obtain ⟨hfirstLabels, hmoreLabels⟩ := List.forall_mem_append.1 hlabels
    obtain ⟨u, hu, hlevels⟩ := exists_lists hfirst hfirstLabels
    obtain ⟨us, hus, hlength, hlevelsAll⟩ := exists_listsAll hmore hmoreLabels
    refine ⟨u :: us, ?_, ?_, ?_⟩
    · rw [Tree.preorderAll_cons]
      exact List.rel_append hu hus
    · rw [List.length_cons, List.length_cons, hlength]
    · rw [Tree.levelsAll, Tree.levelsAll, hlevels, hlevelsAll]

end

/-! ### Which listings are read -/

/-- The numbers of children are those of some tree within the levels, in preorder, there are not too
many entries, each of them has a label, and below terminals there is nothing. -/
structure Complete (count : Nat) (limits : Limits) (listing : Listing) : Prop where
  shape : ∃ t : Tree, t.preorder.map (·.children.length) = listing.map (·.arity) ∧
    t.depth ≤ limits.depth
  length_le : listing.length ≤ limits.nodes
  sound : ∀ entry ∈ listing, EntrySound count entry

theorem Lists.map_arity {listing : Listing} {t : Tree} (h : Lists count listing t) :
    t.preorder.map (·.children.length) = listing.map (·.arity) := by
  rw [eq_comm, ← List.forall₂_eq_eq_eq, List.forall₂_map_left_iff, List.forall₂_map_right_iff]
  exact h.imp fun _ _ hentry => hentry.2

/-- A listing that is read is complete, and it is that of the tree, whose nodes are numbered in
preorder. -/
theorem of_toTree {listing : Listing} {t : Tree} (hlength : listing.length < 2 ^ (32 : Nat))
    (h : listing.toTree count limits = .ok t) :
    Lists count listing t ∧ t.preorder.map (·.id.toNat) = List.range listing.length ∧
      listing.length ≤ limits.nodes ∧ t.depth ≤ limits.depth ∧
        ∀ entry ∈ listing, EntrySound count entry := by
  obtain ⟨hlevels, hnodes⟩ := Tree.checkLimits_eq_ok_iff.1 (checkLimits_of_toTree h)
  have hids := Tree.ids_numbered 0 t
  rw [numbered_of_toTree h] at hids
  refine ⟨lists_of_toTree h, ?_, ?_, ?_, entrySound_of_build (build_of_toTree h)⟩
  · rw [length_of_toTree h] at hlength ⊢
    rw [← Tree.toNat_idsFrom (Nat.le_of_lt hlength), ← hids, List.map_map]
    rfl
  · rwa [length_of_toTree h]
  · rwa [Tree.depth_eq_levels]

/-- A complete listing is read. -/
theorem Complete.exists_toTree {listing : Listing} (h : Complete count limits listing)
    (hlength : listing.length < 2 ^ (32 : Nat)) : ∃ t, listing.toTree count limits = .ok t := by
  obtain ⟨t, hshape, hdepth⟩ := h.shape
  obtain ⟨u, hu, hlevels⟩ := exists_lists hshape.symm fun entry hentry =>
    (h.sound entry hentry).imp fun _ hlabel => hlabel.1
  rw [Tree.depth_eq_levels, ← hlevels] at hdepth
  exact ⟨_, toTree_of_lists hu hlength h.sound h.length_le hdepth⟩

/-- The tree of a listing, its nodes numbered in preorder, is the one that is read. -/
theorem Lists.numbered_eq {listing : Listing} {t : Tree} (h : Lists count listing t)
    (hlength : listing.length < 2 ^ (32 : Nat))
    (hids : t.preorder.map (·.id.toNat) = List.range listing.length) : t.numbered 0 = t := by
  rw [h.length_eq] at hlength hids
  rw [← Tree.toNat_idsFrom (Nat.le_of_lt hlength)] at hids
  apply Tree.numbered_of_ids
  apply List.map_injective_iff.2 fun _ _ => UInt32.toNat_inj.1
  rw [← hids, List.map_map]
  rfl

/-- **Preorder listings.**  A listing is read as a tree exactly if it has the labels and the numbers of
children of the tree in preorder, the nodes of the tree are numbered in preorder, there are not too many
entries and not too many levels, every label is found, and terminals have no children.  So a listing is
read exactly if it is complete; every other one is an error. -/
theorem accepts_iff_preorder (count : Nat) (limits : Limits) (listing : Listing)
    (hlength : listing.length < 2 ^ (32 : Nat)) :
    (∀ t, listing.toTree count limits = .ok t ↔
      Lists count listing t ∧ t.preorder.map (·.id.toNat) = List.range listing.length ∧
        listing.length ≤ limits.nodes ∧ t.depth ≤ limits.depth ∧
          ∀ entry ∈ listing, EntrySound count entry) ∧
    ((∃ t, listing.toTree count limits = .ok t) ↔ Complete count limits listing) ∧
    ((∃ e, listing.toTree count limits = .error e) ↔ ¬ Complete count limits listing) := by
  have hread : (∃ t, listing.toTree count limits = .ok t) ↔ Complete count limits listing := by
    constructor
    · rintro ⟨t, ht⟩
      obtain ⟨hlists, _, hnodes, hdepth, hsound⟩ := of_toTree hlength ht
      exact ⟨⟨t, hlists.map_arity, hdepth⟩, hnodes, hsound⟩
    · exact fun h => h.exists_toTree hlength
  refine ⟨fun t => ⟨of_toTree hlength, ?_⟩, hread, ?_⟩
  · rintro ⟨hlists, hids, hnodes, hdepth, hsound⟩
    rw [Tree.depth_eq_levels] at hdepth
    rw [toTree_of_lists hlists hlength hsound hnodes hdepth, hlists.numbered_eq hlength hids]
  · rw [← hread]
    cases listing.toTree count limits with
    | error e => simp
    | ok t => simp

/-- A start above a block above two terminals: the last entry closes two nodes at once. -/
def closing : Listing :=
  [⟨.ofSymbol (.rule .start), 1⟩, ⟨.ofSymbol (.rule .block), 2⟩, ⟨.state, 0⟩, ⟨.action, 0⟩]

/-- The four entries are those of a tree with three levels; with one entry more, or one less, they are
those of no tree. -/
theorem accepts_iff_preorder_closing :
    closing.length < 2 ^ (32 : Nat) ∧
      (∃ t, closing.toTree 0 ⟨3, 4⟩ = .ok t ∧ Lists 0 closing t ∧
        t.preorder.map (·.id.toNat) = [0, 1, 2, 3] ∧ t.depth ≤ 3) ∧
      ¬ Complete 0 ⟨3, 5⟩ (closing ++ [⟨.state, 0⟩]) ∧ ¬ Complete 0 ⟨3, 4⟩ closing.dropLast := by
  obtain ⟨hread, _, _⟩ := accepts_iff_preorder 0 ⟨3, 4⟩ closing (by decide)
  obtain ⟨_, _, hmore⟩ := accepts_iff_preorder 0 ⟨3, 5⟩ (closing ++ [⟨.state, 0⟩]) (by decide)
  obtain ⟨_, _, hless⟩ := accepts_iff_preorder 0 ⟨3, 4⟩ closing.dropLast (by decide)
  obtain ⟨hlists, hids, _, hdepth, _⟩ := (hread _).1 rfl
  exact ⟨by decide, ⟨_, rfl, hlists, hids, hdepth⟩, hmore.1 ⟨_, rfl⟩, hless.1 ⟨_, rfl⟩⟩

end Listing

end ScoreScript
