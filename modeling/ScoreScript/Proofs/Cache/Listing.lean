import ScoreScript.Cache.Listing
import ScoreScript.Proofs.Tree.Limits
import ScoreScript.Proofs.Tree.Numbering

/-!
# Listings of trees

Going through the listing of a tree gives the tree back, its nodes numbered in preorder, unless it
has too many nodes or too many levels.  While the nodes of a part are gone through, the nodes open
before stay as they are; at the end the part takes its place below the innermost of them.

* `Tree.Storable`, `Tree.WellLabelled` — the trees whose listings can be gone through;
* `Listing.Rebuilds`, `Listing.rebuilds_of_storable` — going through the listing of a part;
* `Listing.toTree_ofTree` — going through the listing of a whole tree.
-/

namespace ScoreScript

theorem StoredLabel.resolve_ofSymbol {count : Nat} {s : Symbol}
    (h : ∀ index, s = .rule (.predicate index) → index < count) :
    (ofSymbol s).resolve count = .ok s := by
  cases s with
  | rule r =>
    have hr : (StoredRule.ofRule r).resolve count = .ok r :=
      StoredRule.resolve_ofRule r fun index heq => h index (heq ▸ rfl)
    rw [ofSymbol, resolve, hr]
    rfl
  | terminal t =>
    cases t with
    | value v =>
      rw [ofSymbol, resolve, StoredLiteral.resolve_ofLiteral]
      rfl
    | _ => rfl

/-- Predicates are within a catalog, terminals have no children, and the numbers of children are
kept in full. -/
inductive Tree.Storable (count : Nat) : Tree → Prop
  | node (id : NodeId) {label : Symbol} {children : List Tree} :
    (∀ index, label = .rule (.predicate index) → index < count) →
    (∀ term, label = .terminal term → children = []) → children.length < 2 ^ (32 : Nat) →
    (∀ child ∈ children, Storable count child) → Storable count (.node id label children)

/-- Predicate rules are within a catalog, and terminals have no children. -/
inductive Tree.WellLabelled (count : Nat) : Tree → Prop
  | node (id : NodeId) {label : Symbol} {children : List Tree} :
    (∀ index, label = .rule (.predicate index) → index < count) →
    (∀ term, label = .terminal term → children = []) →
    (∀ child ∈ children, WellLabelled count child) → WellLabelled count (.node id label children)

theorem Tree.WellLabelled.leaf {count : Nat} (id : NodeId) (term : Terminal) :
    (Tree.node id (.terminal term) []).WellLabelled count := by
  apply WellLabelled.node
  · intro index hindex
    cases hindex
  · intro _ _
    rfl
  · intro child hchild
    exact absurd hchild List.not_mem_nil

theorem Tree.WellLabelled.rule {count : Nat} (id : NodeId) {r : Rule} {children : List Tree}
    (hr : ∀ index, r = .predicate index → index < count)
    (hchildren : ∀ child ∈ children, child.WellLabelled count) :
    (Tree.node id (.rule r) children).WellLabelled count := by
  apply WellLabelled.node
  · intro index hindex
    exact hr index (Symbol.rule.inj hindex)
  · intro term hterm
    cases hterm
  · exact hchildren

theorem Tree.WellLabelled.storable {count : Nat} {t : Tree} (h : t.WellLabelled count)
    (hnodes : t.nodes < 2 ^ (32 : Nat)) : t.Storable count := by
  induction h with
  | @node id label children hindex hterminal _ ih =>
    have hlength := length_le_nodesAll children
    rw [nodes] at hnodes
    refine .node id hindex hterminal (by omega) fun child hchild => ih child hchild ?_
    have hle := nodes_le_nodesAll hchild
    omega

namespace Listing

variable {count : Nat} {limits : Limits}

/-- Goes on with the entries from a position on once a tree is finished. -/
def resume (count : Nat) (limits : Limits) (index : Nat) (t : Tree) (opened : List Frame)
    (tail : Listing) : Except ListingError Tree :=
  build count limits index (Frame.place t opened).1 (Frame.place t opened).2 tail

/-- Going through the listing of a tree finishes the numbered tree, unless the tree is too deep to
stand below the open nodes. -/
def Rebuilds (count : Nat) (limits : Limits) (t : Tree) : Prop :=
  ∀ index opened tail,
    build count limits index opened none (ofTree t ++ tail) =
      if opened.length + t.levels ≤ limits.depth then
        resume count limits (index + t.nodes) (t.numbered index) opened tail
      else .error (.limit (.tooDeep limits.depth))

/-- The listings of trees, one after another. -/
def ofTrees (ts : List Tree) : Listing :=
  ts.flatMap ofTree

theorem ofTree_node (id : NodeId) (label : Symbol) (children : List Tree) :
    ofTree (.node id label children) =
      ⟨.ofSymbol label, children.length % 2 ^ (32 : Nat)⟩ :: ofTrees children := by
  have hbelow : ∀ ts, (Tree.preorderAll ts).map ListingEntry.ofTree = ofTrees ts := by
    intro ts
    induction ts with
    | nil => rw [Tree.preorderAll]; rfl
    | cons t rest ih => rw [Tree.preorderAll_cons, List.map_append, ih]; rfl
  rw [ofTree, Tree.preorder_node, List.map_cons, hbelow]
  rfl

/-- Going through the children of an open node closes it and places it in turn. -/
theorem build_ofTrees {ts : List Tree} (hts : ∀ t ∈ ts, Rebuilds count limits t) (index : Nat)
    (f : Frame) (opened : List Frame) (tail : Listing) (hwaiting : ts.length = f.waiting + 1) :
    build count limits index (f :: opened) none (ofTrees ts ++ tail) =
      if opened.length + 1 + Tree.levelsAll ts ≤ limits.depth then
        resume count limits (index + Tree.nodesAll ts)
          (.node f.id f.label (f.found.reverse ++ Tree.numberedAll index ts)) opened tail
      else .error (.limit (.tooDeep limits.depth)) := by
  induction ts generalizing index f with
  | nil => exact absurd hwaiting (by simp)
  | cons t rest ih =>
    have hfirst := hts t List.mem_cons_self
    have hrest := ih fun u hu => hts u (List.mem_cons_of_mem _ hu)
    have hsplit : ofTrees (t :: rest) ++ tail = ofTree t ++ (ofTrees rest ++ tail) := by
      rw [← List.append_assoc]
      rfl
    obtain ⟨id, label, found, waiting⟩ := f
    rw [hsplit, hfirst, List.length_cons, Tree.levelsAll]
    by_cases hlevels : opened.length + 1 + t.levels ≤ limits.depth
    · rw [if_pos hlevels]
      cases rest with
      | nil =>
        -- the last child closes the node
        have hzero : waiting = 0 := (Nat.succ.inj hwaiting).symm
        subst hzero
        have hclose : Frame.place (t.numbered index) (⟨id, label, found, 0⟩ :: opened) =
            Frame.place (.node id label (found.reverse ++ [t.numbered index])) opened := by
          rw [Frame.place, Frame.close, List.reverse_cons]
        rw [if_pos (by rw [Tree.levelsAll]; omega), resume, hclose]
        rfl
      | cons u us =>
        obtain ⟨waiting, rfl⟩ : ∃ k, waiting = k + 1 := ⟨us.length, (Nat.succ.inj hwaiting).symm⟩
        have hplace : Frame.place (t.numbered index) (⟨id, label, found, waiting + 1⟩ :: opened) =
            (⟨id, label, t.numbered index :: found, waiting⟩ :: opened, none) := by
          rw [Frame.place]
        have hnodes : index + Tree.nodesAll (t :: u :: us) =
            index + t.nodes + Tree.nodesAll (u :: us) := by
          rw [Tree.nodesAll, Nat.add_assoc]
        have hfound : found.reverse ++ Tree.numberedAll index (t :: u :: us) =
            (t.numbered index :: found).reverse ++
              Tree.numberedAll (index + t.nodes) (u :: us) := by
          rw [Tree.numberedAll, List.reverse_cons, List.append_assoc, List.singleton_append]
        rw [resume, hplace, hrest _ _ (Nat.succ.inj hwaiting), hnodes, hfound]
        by_cases hmore : opened.length + 1 + Tree.levelsAll (u :: us) ≤ limits.depth
        · rw [if_pos hmore, if_pos (by omega)]
        · rw [if_neg hmore, if_neg (by omega)]
    · rw [if_neg hlevels, if_neg (by omega)]

/-- Going through the listing of a tree places the tree. -/
theorem rebuilds_of_storable {t : Tree} (h : t.Storable count) : Rebuilds count limits t := by
  induction h with
  | @node id label children hindex hterminal hlength _ ih =>
    intro index opened tail
    have hresolve := StoredLabel.resolve_ofSymbol hindex
    rw [ofTree_node, List.cons_append, Nat.mod_eq_of_lt hlength, build, Tree.levels]
    by_cases hdepth : limits.depth ≤ opened.length
    · rw [if_neg (by simp), if_pos hdepth, if_neg (by omega)]
    · rw [if_neg (by simp), if_neg hdepth]
      simp only [hresolve]
      cases children with
      | nil =>
        have hlevels : opened.length + (1 + Tree.levelsAll []) ≤ limits.depth := by
          rw [Tree.levelsAll]
          omega
        rw [if_pos hlevels]
        rfl
      | cons child children =>
        have hrule : label.terminal? = none := by
          cases label with
          | rule r => rfl
          | terminal term => exact absurd (hterminal term rfl) (by simp)
        have hopen := build_ofTrees ih (index + 1) ⟨UInt32.ofNat index, label, [], children.length⟩
          opened tail rfl
        rw [List.reverse_nil, List.nil_append, Nat.add_assoc opened.length 1] at hopen
        rw [List.length_cons]
        simp only [hrule, Option.isSome_none]
        rw [if_neg Bool.false_ne_true, hopen, Tree.nodes, Tree.numbered, Nat.add_assoc index 1]

/-- **Listings.**  The listing of a tree is read back as the tree with its nodes numbered in
preorder when its nodes and levels are within the limits, and not at all otherwise. -/
theorem toTree_ofTree {t : Tree} (h : t.Storable count) :
    toTree count limits (ofTree t) =
      if limits.nodes < t.nodes then .error (.limit (.tooManyNodes limits.nodes))
      else if t.levels ≤ limits.depth then .ok (t.numbered 0)
      else .error (.limit (.tooDeep limits.depth)) := by
  have hrebuilds : Rebuilds count limits t := rebuilds_of_storable h
  have hbuild := hrebuilds 0 [] []
  rw [List.append_nil, List.length_nil, Nat.zero_add] at hbuild
  rw [toTree, ofTree_length, hbuild]
  rfl

end Listing

end ScoreScript
