import ScoreScript.Grammar.Rule

/-!
# Syntax trees

A node of a syntax tree has a number, a label and an ordered list of children.  Numbers serve to
trace which nodes an evaluation meets; two trees are alike when they agree but for the numbers.

* `Tree.nodes` — how many nodes a tree has, part by part;
* `Tree.levels` — how many levels it has, part by part;
* `Tree.alike` — agreement of labels and shape;
* `Tree.nodes_pos` — no tree is empty.
-/

namespace ScoreScript

/-- The number of a node. -/
abbrev NodeId := UInt32

/-- A node with its number, its label and its children in order. -/
inductive Tree where
  | node (id : NodeId) (label : Symbol) (children : List Tree)

namespace Tree

/-- The number of the root. -/
def id : Tree → NodeId
  | node id _ _ => id

/-- The label of the root. -/
def label : Tree → Symbol
  | node _ label _ => label

/-- The children of the root. -/
def children : Tree → List Tree
  | node _ _ children => children

/-- The rule at the root. -/
def rule? (t : Tree) : Option Rule :=
  t.label.rule?

/-- The terminal at the root. -/
def terminal? (t : Tree) : Option Terminal :=
  t.label.terminal?

/-- Whether the root has no children. -/
def isLeaf (t : Tree) : Bool :=
  t.children.isEmpty

/-! ### Size and height, part by part -/

mutual

/-- The number of nodes of a tree. -/
def nodes : Tree → Nat
  | node _ _ children => 1 + nodesAll children

/-- The number of nodes of all trees in a list. -/
def nodesAll : List Tree → Nat
  | [] => 0
  | t :: rest => t.nodes + nodesAll rest

end

mutual

/-- The number of levels of a tree. -/
def levels : Tree → Nat
  | node _ _ children => 1 + levelsAll children

/-- The greatest number of levels of the trees in a list. -/
def levelsAll : List Tree → Nat
  | [] => 0
  | t :: rest => max t.levels (levelsAll rest)

end

theorem nodes_pos (t : Tree) : 0 < t.nodes := by
  cases t with
  | node id label children => rw [nodes]; omega

theorem levels_pos (t : Tree) : 0 < t.levels := by
  cases t with
  | node id label children => rw [levels]; omega

theorem nodesAll_append (ts us : List Tree) :
    nodesAll (ts ++ us) = nodesAll ts + nodesAll us := by
  induction ts with
  | nil => simp [nodesAll]
  | cons t rest ih => rw [List.cons_append, nodesAll, nodesAll, ih]; omega

theorem nodesAll_reverse (ts : List Tree) : nodesAll ts.reverse = nodesAll ts := by
  induction ts with
  | nil => rfl
  | cons t rest ih =>
    rw [List.reverse_cons, nodesAll_append, ih]
    simp only [nodesAll]
    omega

theorem nodes_children (t : Tree) : t.nodes = 1 + nodesAll t.children := by
  cases t with
  | node id label children => rw [nodes, Tree.children]

/-! ### Likeness -/

mutual

/-- The same labels in the same shape; the numbers do not matter. -/
def alike : Tree → Tree → Bool
  | node _ label children, node _ label' children' => label == label' && alikeAll children children'

/-- Likeness tree by tree. -/
def alikeAll : List Tree → List Tree → Bool
  | [], [] => true
  | t :: ts, u :: us => alike t u && alikeAll ts us
  | _, _ => false

end

mutual

/-- The tree with every number replaced by its image. -/
def mapIds (f : NodeId → NodeId) : Tree → Tree
  | node id label children => node (f id) label (mapIdsAll f children)

/-- The trees with every number replaced by its image. -/
def mapIdsAll (f : NodeId → NodeId) : List Tree → List Tree
  | [] => []
  | t :: rest => mapIds f t :: mapIdsAll f rest

end

/-! ### Literals under wrappers -/

/-- The literal at the bottom of a chain of only children. -/
def literal? : Tree → Option Literal
  | node _ (.terminal (.value literal)) _ => some literal
  | node _ (.terminal _) _ => none
  | node _ (.rule _) [only] => literal? only
  | node _ (.rule _) _ => none

/-- The operator at the bottom of a chain of only children. -/
def comparator? : Tree → Option Comparator
  | node _ (.terminal (.op comparator)) _ => some comparator
  | node _ (.terminal _) _ => none
  | node _ (.rule _) [only] => comparator? only
  | node _ (.rule _) _ => none

/-- The integer at the bottom of a chain of only children. -/
def integer? (t : Tree) : Option Int :=
  match t.literal? with
  | some (.int value) => some value.toInt
  | _ => none

/-! ### Parts of a call -/

/-- Whether a node stands for an operator. -/
def isComparator (t : Tree) : Bool :=
  match t.label with
  | .rule .numericComparator => true
  | .rule .enumComparator => true
  | .terminal (.op _) => true
  | _ => false

/-- The nodes after a call's name: the arguments, and the operator and literal if the last but one
stands for an operator. -/
def splitComparison : List Tree → List Tree × Option (Tree × Tree)
  | [] => ([], none)
  | [t] => ([t], none)
  | [op, value] => if op.isComparator then ([], some (op, value)) else ([op, value], none)
  | t :: rest =>
    let (arguments, comparison) := splitComparison rest
    (t :: arguments, comparison)

theorem splitComparison_eq (ts : List Tree) :
    ts = (splitComparison ts).1 ++
      (match (splitComparison ts).2 with | none => [] | some (op, value) => [op, value]) := by
  fun_induction splitComparison ts with
  | case1 => rfl
  | case2 => rfl
  | case3 op value h => simp
  | case4 op value h => simp
  | case5 t rest _ _ arguments comparison hsplit ih =>
    rw [hsplit] at ih
    rw [List.cons_append, ← ih]

end Tree

end ScoreScript
