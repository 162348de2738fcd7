import ScoreScript.Config
import ScoreScript.Tree.Basic

/-!
# Traversals of syntax trees

A traversal keeps the trees that are still to be visited in a list and takes the first one each
time, so deep trees need no deep recursion.  The list gets shorter by one node with every step.

* `Tree.preorder` — every tree that a tree contains, a node before its children and the children
  from left to right;
* `Tree.size`, `Tree.depth` — the number of nodes and of levels;
* `Tree.checkLimits` — whether both stay within limits; nodes are visited from the right;
* `Tree.preorder_length` — the traversal meets each node once.
-/

namespace ScoreScript

/-- A tree that is too deep or too large. -/
inductive LimitError where
  | tooDeep (limit : Nat)
  | tooManyNodes (limit : Nat)
  deriving DecidableEq

/-- The wording of an error. -/
def LimitError.message : LimitError → String
  | tooDeep limit => s!"tree exceeded depth limit of {limit}"
  | tooManyNodes limit => s!"tree exceeded node limit of {limit}"

namespace Tree

/-! ### Preorder -/

/-- The trees in a list and all that they contain, in preorder. -/
def preorderAll (pending : List Tree) : List Tree :=
  match pending with
  | [] => []
  | t :: rest => t :: preorderAll (t.children ++ rest)
termination_by nodesAll pending
decreasing_by
  rw [nodesAll_append, nodesAll, nodes_children t]
  omega

/-- A tree and all that it contains, in preorder. -/
def preorder (t : Tree) : List Tree :=
  preorderAll [t]

/-- The number of nodes. -/
def size (t : Tree) : Nat :=
  t.preorder.length

theorem preorderAll_length (pending : List Tree) :
    (preorderAll pending).length = nodesAll pending := by
  fun_induction preorderAll pending with
  | case1 => rfl
  | case2 t rest ih =>
    rw [List.length_cons, ih, nodesAll_append, nodesAll, nodes_children t]
    omega

theorem preorder_length (t : Tree) : t.preorder.length = t.nodes := by
  rw [preorder, preorderAll_length, nodesAll, nodesAll, Nat.add_zero]

/-! ### Levels -/

/-- The trees of a list, each with its level. -/
def atLevel (level : Nat) (ts : List Tree) : List (Tree × Nat) :=
  ts.map fun t => (t, level)

/-- The number of nodes of trees with levels. -/
def nodesLevelled (pending : List (Tree × Nat)) : Nat :=
  nodesAll (pending.map (·.1))

theorem nodesLevelled_step (t : Tree) (level : Nat) (rest : List (Tree × Nat)) :
    nodesLevelled (atLevel (level + 1) t.children.reverse ++ rest) <
      nodesLevelled ((t, level) :: rest) := by
  have hmap : (atLevel (level + 1) t.children.reverse).map (·.1) = t.children.reverse := by
    simp [atLevel, Function.comp_def]
  rw [nodesLevelled, nodesLevelled, List.map_append, hmap, nodesAll_append, nodesAll_reverse,
    List.map_cons, nodesAll, nodes_children t]
  omega

/-- The greatest level below trees with levels, at least `deepest`. -/
def deepestFrom (deepest : Nat) (pending : List (Tree × Nat)) : Nat :=
  match pending with
  | [] => deepest
  | (t, level) :: rest =>
    deepestFrom (max deepest level) (atLevel (level + 1) t.children.reverse ++ rest)
termination_by nodesLevelled pending
decreasing_by exact nodesLevelled_step t level rest

/-- The number of levels. -/
def depth (t : Tree) : Nat :=
  deepestFrom 0 [(t, 1)]

/-! ### Limits -/

/-- Visits trees with levels, `seen` nodes having been visited before, and stops at the first node
beyond a limit. -/
def checkFrom (limits : Limits) (seen : Nat) (pending : List (Tree × Nat)) :
    Except LimitError Unit :=
  match pending with
  | [] => .ok ()
  | (t, level) :: rest =>
    if limits.depth < level then .error (.tooDeep limits.depth)
    else if limits.nodes < seen + 1 then .error (.tooManyNodes limits.nodes)
    else checkFrom limits (seen + 1) (atLevel (level + 1) t.children.reverse ++ rest)
termination_by nodesLevelled pending
decreasing_by exact nodesLevelled_step t level rest

/-- Whether a tree stays within limits. -/
def checkLimits (limits : Limits) (t : Tree) : Except LimitError Unit :=
  checkFrom limits 0 [(t, 1)]

end Tree

end ScoreScript
