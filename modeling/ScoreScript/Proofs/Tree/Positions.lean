import ScoreScript.Proofs.Tree.Subtrees

/-!
# Positions

A position says which child to go to, step after step on the way down from the root.  It tells nodes
apart even where their subtrees are equal, so it is positions that a traversal meets once each.

* `Tree.at?` — the subtree at a position, and `Tree.positions` — the positions in a tree;
* `Tree.mem_positions` — these are the positions at which there is a subtree;
* `Tree.pairwise_positions` — their order is lexicographic: a node before what stands below it, and
  the children from left to right;
* `Tree.map_at?_positions` — the traversal of a tree meets its positions in this order;
* `Tree.traversals_recursive` — traversal, size, depth and limits.
-/

namespace ScoreScript.Tree

/-- The subtree at a position, if the position is in the tree. -/
def at? (t : Tree) : List Nat → Option Tree
  | [] => some t
  | place :: path =>
    match t.children[place]? with
    | none => none
    | some child => child.at? path

mutual

/-- The positions in a tree, the root first and the children from left to right. -/
def positions : Tree → List (List Nat)
  | node _ _ children => [] :: positionsFrom 0 children

/-- The positions in the trees of a list that are children from the given place on. -/
def positionsFrom (place : Nat) : List Tree → List (List Nat)
  | [] => []
  | t :: rest => t.positions.map (place :: ·) ++ positionsFrom (place + 1) rest

end

/-! ### Which positions there are -/

theorem at?_node (id : NodeId) (label : Symbol) (children : List Tree) (place : Nat)
    (path : List Nat) :
    (node id label children).at? (place :: path) = children[place]?.bind (·.at? path) := by
  rw [at?, Tree.children]
  cases children[place]? with
  | none => rfl
  | some child => rfl

theorem mem_positionsFrom {place : Nat} {ts : List Tree} {p : List Nat} :
    p ∈ positionsFrom place ts ↔
      ∃ i path t, p = (place + i) :: path ∧ ts[i]? = some t ∧ path ∈ t.positions := by
  induction ts generalizing place with
  | nil => simp [positionsFrom]
  | cons t rest ih =>
    rw [positionsFrom, List.mem_append, List.mem_map, ih]
    constructor
    · rintro (⟨path, hpath, rfl⟩ | ⟨i, path, u, rfl, hu, hpath⟩)
      · exact ⟨0, path, t, rfl, rfl, hpath⟩
      · exact ⟨i + 1, path, u, by rw [Nat.add_right_comm, Nat.add_assoc], hu, hpath⟩
    · rintro ⟨i, path, u, rfl, hu, hpath⟩
      cases i with
      | zero => exact Or.inl ⟨path, Option.some.inj hu ▸ hpath, rfl⟩
      | succ i => exact Or.inr ⟨i, path, u, by rw [Nat.add_right_comm, Nat.add_assoc], hu, hpath⟩

/-- The positions in a tree are those at which there is a subtree. -/
theorem mem_positions {t : Tree} {p : List Nat} : p ∈ t.positions ↔ (t.at? p).isSome = true := by
  induction t using children_induction generalizing p with
  | node id label children ih =>
    rw [positions, List.mem_cons]
    cases p with
    | nil => exact iff_of_true (Or.inl rfl) rfl
    | cons place path =>
      rw [mem_positionsFrom, at?_node]
      cases hchild : children[place]? with
      | none => simp [hchild]
      | some child =>
        have hpath := ih child (List.mem_of_getElem? hchild) (p := path)
        simp [hchild, hpath]

/-! ### Their order -/

theorem le_of_mem_positionsFrom {place : Nat} {ts : List Tree} {p : List Nat}
    (h : p ∈ positionsFrom place ts) : ∃ i path, p = i :: path ∧ place ≤ i := by
  obtain ⟨i, path, t, rfl, _, _⟩ := mem_positionsFrom.1 h
  exact ⟨place + i, path, rfl, Nat.le_add_right place i⟩

mutual

/-- Every position comes before all that are greater lexicographically. -/
theorem pairwise_positions (t : Tree) : t.positions.Pairwise (· < ·) := by
  cases t with
  | node id label children =>
    rw [positions, List.pairwise_cons]
    refine ⟨fun p hp => ?_, pairwise_positionsFrom 0 children⟩
    obtain ⟨i, path, rfl, _⟩ := le_of_mem_positionsFrom hp
    exact List.nil_lt_cons i path

theorem pairwise_positionsFrom (place : Nat) (ts : List Tree) :
    (positionsFrom place ts).Pairwise (· < ·) := by
  cases ts with
  | nil => exact List.Pairwise.nil
  | cons t rest =>
    rw [positionsFrom, List.pairwise_append]
    refine ⟨?_, pairwise_positionsFrom (place + 1) rest, fun p hp q hq => ?_⟩
    · refine (pairwise_positions t).map (place :: ·) fun p q hlt => ?_
      exact List.cons_lt_cons_iff.2 (Or.inr ⟨rfl, hlt⟩)
    · obtain ⟨path, _, rfl⟩ := List.mem_map.1 hp
      obtain ⟨i, path', rfl, hle⟩ := le_of_mem_positionsFrom hq
      exact List.cons_lt_cons_iff.2 (Or.inl hle)

end

/-! ### The subtrees at the positions -/

theorem map_at?_cons {t child : Tree} {place : Nat} (h : t.children[place]? = some child)
    (paths : List (List Nat)) :
    (paths.map (place :: ·)).map t.at? = paths.map child.at? := by
  rw [List.map_map]
  refine List.map_congr_left fun path _ => ?_
  rw [Function.comp_apply, at?, h]

theorem map_at?_positionsFrom {t : Tree} {ts : List Tree} (before : List Tree)
    (h : t.children = before ++ ts)
    (hchildren : ∀ child ∈ ts, child.positions.map child.at? = child.preorder.map some) :
    (positionsFrom before.length ts).map t.at? = (preorderAll ts).map some := by
  induction ts generalizing before with
  | nil => rw [positionsFrom, preorderAll]; rfl
  | cons child rest ih =>
    have hchild : t.children[before.length]? = some child := by
      rw [h, List.getElem?_append_right (Nat.le_refl _), Nat.sub_self]
      rfl
    have hrest := ih (before ++ [child]) (by rw [h, List.append_assoc]; rfl)
      fun u hu => hchildren u (List.mem_cons_of_mem _ hu)
    rw [List.length_append, List.length_singleton] at hrest
    rw [positionsFrom, List.map_append, map_at?_cons hchild, hchildren child List.mem_cons_self,
      hrest, preorderAll_cons, List.map_append]

/-- The subtrees at the positions of a tree are those that the traversal meets. -/
theorem map_at?_positions (t : Tree) : t.positions.map t.at? = t.preorder.map some := by
  induction t using children_induction with
  | node id label children ih =>
    have hbelow : (positionsFrom 0 children).map (node id label children).at? =
        (preorderAll children).map some :=
      map_at?_positionsFrom [] rfl ih
    rw [positions, List.map_cons, hbelow, preorder_node, List.map_cons, at?]

theorem length_positions (t : Tree) : t.positions.length = t.preorder.length := by
  rw [← List.length_map (f := t.at?), map_at?_positions, List.length_map]

/-- **Traversals.**  The traversal of a tree meets the subtree at each position once, a node before
its children and these one after another.  Size and depth add up from those of the children, and the
check of limits compares them. -/
theorem traversals_recursive (t : Tree) :
    (t.preorder = t :: t.children.flatMap preorder ∧
        t.preorder.map some = t.positions.map t.at? ∧ t.positions.Pairwise (· < ·) ∧
        ∀ p, p ∈ t.positions ↔ (t.at? p).isSome = true) ∧
      t.size = 1 + (t.children.map size).sum ∧
      t.depth = 1 + (t.children.map depth).foldr max 0 ∧
      ∀ limits : Limits,
        (t.checkLimits limits = .ok () ↔ t.depth ≤ limits.depth ∧ t.size ≤ limits.nodes) ∧
        ∀ e, t.checkLimits limits = .error e →
          (e = .tooDeep limits.depth ∧ limits.depth < t.depth) ∨
            (e = .tooManyNodes limits.nodes ∧ limits.nodes < t.size) := by
  have hsize : size = nodes := funext size_eq_nodes
  have hdepth : depth = levels := funext depth_eq_levels
  rw [hsize, hdepth]
  refine ⟨⟨?_, (map_at?_positions t).symm, pairwise_positions t, fun p => mem_positions⟩,
    nodes_eq_sum t, levels_eq_max t, fun limits => ⟨checkLimits_eq_ok_iff, fun e he => ?_⟩⟩
  · cases t with
    | node id label children => rw [preorder_node, preorderAll_eq_flatMap, Tree.children]
  · exact checkLimits_eq_error he

end ScoreScript.Tree
