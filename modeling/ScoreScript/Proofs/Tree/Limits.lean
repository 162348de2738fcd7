import Mathlib.Algebra.GroupWithZero.Nat
import ScoreScript.Tree.Traversal

/-!
# Traversals and recursion

The traversals that keep the trees still to be visited in a list compute what recursion over the
tree computes.

* `Tree.preorderAll_append`, `Tree.preorder_node`, `Tree.mem_preorder_node` — preorder, part by part;
* `Tree.size_eq_nodes`, `Tree.depth_eq_levels` — the number of nodes and of levels;
* `Tree.nodes_eq_sum`, `Tree.levels_eq_max` — both numbers from those of the children;
* `Tree.checkLimits_eq_ok_iff` — the limits are kept when both numbers are within them;
* `Tree.checkLimits_eq_error` — a limit that is reported is exceeded.
-/

namespace ScoreScript.Tree

/-! ### Preorder -/

theorem preorderAll_append (ts us : List Tree) :
    preorderAll (ts ++ us) = preorderAll ts ++ preorderAll us := by
  fun_induction preorderAll ts with
  | case1 => rw [List.nil_append, List.nil_append]
  | case2 t rest ih => rw [List.cons_append, preorderAll, ← List.append_assoc, ih, List.cons_append]

theorem preorder_node (id : NodeId) (label : Symbol) (children : List Tree) :
    (node id label children).preorder = node id label children :: preorderAll children := by
  rw [preorder, preorderAll, List.append_nil, Tree.children]

theorem preorderAll_cons (t : Tree) (rest : List Tree) :
    preorderAll (t :: rest) = t.preorder ++ preorderAll rest :=
  preorderAll_append [t] rest

theorem preorderAll_eq_flatMap (ts : List Tree) : preorderAll ts = ts.flatMap preorder := by
  induction ts with
  | nil => rw [preorderAll, List.flatMap_nil]
  | cons t rest ih => rw [preorderAll_cons, ih, List.flatMap_cons]

/-- A part of a tree is the tree itself or a part of one of its children. -/
theorem mem_preorder_node {id : NodeId} {label : Symbol} {children : List Tree} {u : Tree} :
    u ∈ (node id label children).preorder ↔
      u = node id label children ∨ ∃ child ∈ children, u ∈ child.preorder := by
  rw [preorder_node, List.mem_cons, preorderAll_eq_flatMap, List.mem_flatMap]

theorem size_eq_nodes (t : Tree) : t.size = t.nodes := by
  rw [size, preorder_length]

theorem nodesAll_eq_sum (ts : List Tree) : nodesAll ts = (ts.map nodes).sum := by
  induction ts with
  | nil => rfl
  | cons t rest ih => rw [nodesAll, ih, List.map_cons, List.sum_cons]

theorem nodes_eq_sum (t : Tree) : t.nodes = 1 + (t.children.map nodes).sum := by
  rw [nodes_children, nodesAll_eq_sum]

/-! ### Levels -/

theorem levelsAll_append (ts us : List Tree) :
    levelsAll (ts ++ us) = max (levelsAll ts) (levelsAll us) := by
  induction ts with
  | nil => rw [List.nil_append, levelsAll, Nat.zero_max]
  | cons t rest ih => rw [List.cons_append, levelsAll, levelsAll, ih, Nat.max_assoc]

theorem levelsAll_reverse (ts : List Tree) : levelsAll ts.reverse = levelsAll ts := by
  induction ts with
  | nil => rfl
  | cons t rest ih =>
    rw [List.reverse_cons, levelsAll_append, ih, levelsAll, levelsAll, levelsAll, Nat.max_zero,
      Nat.max_comm]

theorem levels_children (t : Tree) : t.levels = 1 + levelsAll t.children := by
  cases t with
  | node id label children => rw [levels, Tree.children]

theorem levelsAll_eq_max (ts : List Tree) : levelsAll ts = (ts.map levels).foldr max 0 := by
  induction ts with
  | nil => rfl
  | cons t rest ih => rw [levelsAll, ih, List.map_cons, List.foldr_cons]

theorem levels_eq_max (t : Tree) : t.levels = 1 + (t.children.map levels).foldr max 0 := by
  rw [levels_children, levelsAll_eq_max]

/-- The greatest level in trees with levels. -/
def levelsLevelled : List (Tree × Nat) → Nat
  | [] => 0
  | (t, level) :: rest => max (level + levelsAll t.children) (levelsLevelled rest)

theorem levelsLevelled_append (pending pending' : List (Tree × Nat)) :
    levelsLevelled (pending ++ pending') =
      max (levelsLevelled pending) (levelsLevelled pending') := by
  induction pending with
  | nil => rw [List.nil_append, levelsLevelled, Nat.zero_max]
  | cons first rest ih =>
    rw [List.cons_append, levelsLevelled, levelsLevelled, ih, Nat.max_assoc]

/-- The levels below a node start one below its own. -/
theorem max_levelsLevelled_atLevel (level : Nat) (ts : List Tree) :
    max level (levelsLevelled (atLevel (level + 1) ts)) = level + levelsAll ts := by
  induction ts with
  | nil => rw [atLevel, List.map_nil, levelsLevelled, levelsAll, Nat.max_zero, Nat.add_zero]
  | cons t rest ih =>
    have hcons : levelsLevelled (atLevel (level + 1) (t :: rest)) =
        max (level + 1 + levelsAll t.children) (levelsLevelled (atLevel (level + 1) rest)) := rfl
    rw [hcons, levelsAll, levels_children t]
    omega

/-- Visiting a node puts its children in its place, one level lower. -/
theorem levelsLevelled_step (t : Tree) (level : Nat) (rest : List (Tree × Nat)) :
    max level (levelsLevelled (atLevel (level + 1) t.children.reverse ++ rest)) =
      levelsLevelled ((t, level) :: rest) := by
  have hbelow := max_levelsLevelled_atLevel level t.children.reverse
  rw [levelsAll_reverse] at hbelow
  rw [levelsLevelled_append, levelsLevelled]
  omega

theorem deepestFrom_eq (deepest : Nat) (pending : List (Tree × Nat)) :
    deepestFrom deepest pending = max deepest (levelsLevelled pending) := by
  fun_induction deepestFrom deepest pending with
  | case1 deepest => rw [levelsLevelled, Nat.max_zero]
  | case2 deepest t level rest ih =>
    rw [ih, ← levelsLevelled_step t level rest, Nat.max_assoc]

theorem depth_eq_levels (t : Tree) : t.depth = t.levels := by
  rw [depth, deepestFrom_eq, levelsLevelled, levelsLevelled, levels_children, Nat.max_zero,
    Nat.zero_max]

/-! ### Limits -/

theorem nodesLevelled_children (t : Tree) (level : Nat) (rest : List (Tree × Nat)) :
    nodesLevelled ((t, level) :: rest) =
      1 + nodesLevelled (atLevel (level + 1) t.children.reverse ++ rest) := by
  have hmap : (atLevel (level + 1) t.children.reverse).map (·.1) = t.children.reverse := by
    simp [atLevel, Function.comp_def]
  rw [nodesLevelled, nodesLevelled, List.map_append, hmap, nodesAll_append, nodesAll_reverse,
    List.map_cons, nodesAll, nodes_children t]
  omega

theorem checkFrom_eq_ok_iff (limits : Limits) (seen : Nat) (pending : List (Tree × Nat))
    (hseen : seen ≤ limits.nodes) :
    checkFrom limits seen pending = .ok () ↔
      levelsLevelled pending ≤ limits.depth ∧ seen + nodesLevelled pending ≤ limits.nodes := by
  fun_induction checkFrom limits seen pending with
  | case1 seen =>
    rw [levelsLevelled, nodesLevelled, List.map_nil, nodesAll]
    exact ⟨fun _ => ⟨Nat.zero_le _, hseen⟩, fun _ => rfl⟩
  | case2 seen t level rest hdeep =>
    rw [← levelsLevelled_step t level rest]
    constructor
    · intro h
      exact absurd h (by simp)
    · intro hwithin
      obtain ⟨hlevels, _⟩ := hwithin
      omega
  | case3 seen t level rest _ hmany =>
    rw [nodesLevelled_children]
    constructor
    · intro h
      exact absurd h (by simp)
    · intro hwithin
      obtain ⟨_, hnodes⟩ := hwithin
      omega
  | case4 seen t level rest hdeep hmany ih =>
    rw [ih (by omega), ← levelsLevelled_step t level rest, nodesLevelled_children]
    omega

/-- The limit that a stopped check reports is exceeded by what it still had to visit. -/
theorem checkFrom_eq_error {limits : Limits} {seen : Nat} {pending : List (Tree × Nat)}
    {e : LimitError} (h : checkFrom limits seen pending = .error e) :
    (e = .tooDeep limits.depth ∧ limits.depth < levelsLevelled pending) ∨
      (e = .tooManyNodes limits.nodes ∧ limits.nodes < seen + nodesLevelled pending) := by
  fun_induction checkFrom limits seen pending with
  | case1 seen => cases h
  | case2 seen t level rest hdeep =>
    refine Or.inl ⟨(Except.error.inj h).symm, ?_⟩
    rw [← levelsLevelled_step t level rest]
    omega
  | case3 seen t level rest _ hmany =>
    refine Or.inr ⟨(Except.error.inj h).symm, ?_⟩
    rw [nodesLevelled_children]
    omega
  | case4 seen t level rest _ _ ih =>
    rw [← levelsLevelled_step t level rest, nodesLevelled_children]
    rcases ih h with ⟨he, hlevels⟩ | ⟨he, hnodes⟩
    · exact Or.inl ⟨he, by omega⟩
    · exact Or.inr ⟨he, by omega⟩

theorem levelsLevelled_root (t : Tree) : levelsLevelled [(t, 1)] = t.levels := by
  rw [levelsLevelled, levelsLevelled, Nat.max_zero, levels_children]

theorem nodesLevelled_root (t : Tree) : nodesLevelled [(t, 1)] = t.nodes :=
  Nat.add_zero t.nodes

/-- **Limits.**  A tree passes the check when its levels and its nodes are within the limits. -/
theorem checkLimits_eq_ok_iff {limits : Limits} {t : Tree} :
    t.checkLimits limits = .ok () ↔ t.levels ≤ limits.depth ∧ t.nodes ≤ limits.nodes := by
  rw [checkLimits, checkFrom_eq_ok_iff _ _ _ (Nat.zero_le _), levelsLevelled_root,
    nodesLevelled_root, Nat.zero_add]

/-- The limit that is reported of a tree is exceeded by it. -/
theorem checkLimits_eq_error {limits : Limits} {t : Tree} {e : LimitError}
    (h : t.checkLimits limits = .error e) :
    (e = .tooDeep limits.depth ∧ limits.depth < t.levels) ∨
      (e = .tooManyNodes limits.nodes ∧ limits.nodes < t.nodes) := by
  have hbeyond := checkFrom_eq_error h
  rwa [levelsLevelled_root, nodesLevelled_root, Nat.zero_add] at hbeyond

end ScoreScript.Tree
