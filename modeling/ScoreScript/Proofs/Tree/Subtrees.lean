import Mathlib.Data.List.Nodup
import Mathlib.Data.List.Pairwise
import ScoreScript.Proofs.Tree.Numbering
import ScoreScript.Proofs.Tree.Parts

/-!
# Subtrees

The trees that a tree contains are those of its preorder traversal.  A tree stands below another one if
it is contained in a child of it, and then it is smaller.  Where all nodes have different numbers, no two
children have a subtree in common, so a subtree has its place in the tree.

* `Tree.mem_preorder_trans` — containment is transitive;
* `Tree.nodes_le_of_mem_preorder`, `Tree.Below.nodes_lt` — what is contained is no larger, and what
  stands below is smaller;
* `Tree.Distinct` — all nodes have different numbers;
* `Tree.Distinct.pairwise_children`, `Tree.Distinct.child_unique` — no subtree is contained in two
  children;
* `Tree.distinct_numbered` — nodes numbered in preorder have different numbers.
-/

namespace ScoreScript.Tree

/-! ### Containment -/

theorem mem_preorder_self (t : Tree) : t ∈ t.preorder := by
  cases t with
  | node id label children => exact mem_preorder_node.2 (Or.inl rfl)

theorem mem_preorderAll {u : Tree} {ts : List Tree} :
    u ∈ preorderAll ts ↔ ∃ t ∈ ts, u ∈ t.preorder := by
  rw [preorderAll_eq_flatMap, List.mem_flatMap]

theorem mem_preorder_of_mem_children {id : NodeId} {label : Symbol} {children : List Tree}
    {child u : Tree} (hchild : child ∈ children) (hu : u ∈ child.preorder) :
    u ∈ (node id label children).preorder :=
  mem_preorder_node.2 (Or.inr ⟨child, hchild, hu⟩)

theorem mem_preorder_trans {t u v : Tree} (hv : v ∈ u.preorder) (hu : u ∈ t.preorder) :
    v ∈ t.preorder := by
  induction t using children_induction with
  | node id label children ih =>
    rcases mem_preorder_node.1 hu with rfl | ⟨child, hchild, hmem⟩
    · exact hv
    · exact mem_preorder_of_mem_children hchild (ih child hchild hmem)

/-- The second tree is contained in a child of the first. -/
def Below (t u : Tree) : Prop :=
  u ∈ preorderAll t.children

theorem below_node {id : NodeId} {label : Symbol} {children : List Tree} {u : Tree} :
    Below (node id label children) u ↔ ∃ child ∈ children, u ∈ child.preorder :=
  mem_preorderAll

theorem mem_preorder_iff {t u : Tree} : u ∈ t.preorder ↔ u = t ∨ t.Below u := by
  cases t with
  | node id label children => rw [mem_preorder_node, below_node]

theorem Below.mem_preorder {t u : Tree} (h : t.Below u) : u ∈ t.preorder :=
  mem_preorder_iff.2 (Or.inr h)

/-- Nothing that is contained is larger. -/
theorem nodes_le_of_mem_preorder {t u : Tree} (h : u ∈ t.preorder) : u.nodes ≤ t.nodes := by
  induction t using children_induction with
  | node id label children ih =>
    rcases mem_preorder_node.1 h with rfl | ⟨child, hchild, hmem⟩
    · exact Nat.le_refl _
    · have hle := ih child hchild hmem
      have hall := nodes_le_nodesAll hchild
      rw [nodes]
      omega

/-- What stands below is smaller. -/
theorem Below.nodes_lt {t u : Tree} (h : t.Below u) : u.nodes < t.nodes := by
  obtain ⟨child, hchild, hmem⟩ := mem_preorderAll.1 h
  have hle := nodes_le_of_mem_preorder hmem
  have hall := nodes_le_nodesAll hchild
  rw [nodes_children t]
  omega

/-- Nothing stands below a part of itself. -/
theorem not_below_of_mem_preorder {t u : Tree} (h : u ∈ t.preorder) : ¬ u.Below t := fun hbelow =>
  absurd (nodes_le_of_mem_preorder h) (Nat.not_le.2 hbelow.nodes_lt)

/-! ### Different numbers -/

/-- No subtree is contained in both. -/
def Apart (t t' : Tree) : Prop :=
  ∀ u ∈ t.preorder, u ∉ t'.preorder

instance : Std.Symm Apart where
  symm _ _ hapart u hu hu' := hapart u hu' hu

/-- All nodes have different numbers. -/
def Distinct (t : Tree) : Prop :=
  (t.preorder.map id).Nodup

namespace Distinct

variable {number : NodeId} {label : Symbol} {children : List Tree}

/-- The numbers below a node are those of its children, one child after another. -/
theorem nodup_flatMap (h : (node number label children).Distinct) :
    (children.flatMap fun child => child.preorder.map id).Nodup := by
  rw [Distinct, preorder_node, List.map_cons, preorderAll_eq_flatMap, List.map_flatMap] at h
  exact (List.nodup_cons.1 h).2

theorem of_mem_children (h : (node number label children).Distinct) {child : Tree}
    (hchild : child ∈ children) : child.Distinct :=
  (List.nodup_flatMap.1 h.nodup_flatMap).1 child hchild

/-- No subtree is contained in two children. -/
theorem pairwise_children (h : (node number label children).Distinct) :
    children.Pairwise Apart := by
  refine (List.nodup_flatMap.1 h.nodup_flatMap).2.imp fun hdisjoint u hu hu' => ?_
  exact hdisjoint (List.mem_map_of_mem hu) (List.mem_map_of_mem hu')

/-- The child that contains a subtree is the only one. -/
theorem child_unique (h : (node number label children).Distinct) {t t' u : Tree} (ht : t ∈ children)
    (ht' : t' ∈ children) (hu : u ∈ t.preorder) (hu' : u ∈ t'.preorder) : t = t' := by
  by_contra hne
  exact h.pairwise_children.forall ht ht' hne u hu hu'

end Distinct

/-- In a tree that is numbered in preorder all nodes have different numbers, as long as there are enough
numbers. -/
theorem distinct_numbered {t : Tree} (h : t.nodes ≤ 2 ^ (32 : Nat)) : (t.numbered 0).Distinct := by
  rw [Distinct, ids_numbered]
  apply List.Nodup.of_map UInt32.toNat
  rw [toNat_idsFrom h]
  exact List.nodup_range

end ScoreScript.Tree
