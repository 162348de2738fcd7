import ScoreScript.Proofs.Tree.Limits

/-!
# Numbering

The nodes of a tree can be numbered anew in preorder: a node comes before its children, and the
children are numbered from left to right.

* `Tree.numbered` — the tree with its nodes numbered in preorder from a number on;
* `Tree.nodes_numbered`, `Tree.levels_numbered` — numbering leaves size and height alone;
* `Tree.numbered_of_ids` — a tree whose numbers count up in preorder is numbered;
* `Tree.ids_numbered`, `Tree.toNat_idsFrom` — and the numbers of a numbered tree do;
* `Tree.length_le_nodesAll` — no list has more trees than nodes.
-/

namespace ScoreScript.Tree

mutual

/-- The tree with its nodes numbered in preorder from `next` on. -/
def numbered (next : Nat) : Tree → Tree
  | node _ label children => node (UInt32.ofNat next) label (numberedAll (next + 1) children)

/-- The trees with their nodes numbered in preorder from `next` on. -/
def numberedAll (next : Nat) : List Tree → List Tree
  | [] => []
  | t :: rest => numbered next t :: numberedAll (next + t.nodes) rest

end

mutual

theorem nodes_numbered (next : Nat) (t : Tree) : (t.numbered next).nodes = t.nodes := by
  cases t with
  | node id label children => rw [numbered, nodes, nodes, nodesAll_numberedAll]

theorem nodesAll_numberedAll (next : Nat) (ts : List Tree) :
    nodesAll (numberedAll next ts) = nodesAll ts := by
  cases ts with
  | nil => rfl
  | cons t rest =>
    rw [numberedAll, nodesAll, nodes_numbered, nodesAll_numberedAll, nodesAll]

end

mutual

theorem levels_numbered (next : Nat) (t : Tree) : (t.numbered next).levels = t.levels := by
  cases t with
  | node id label children => rw [numbered, levels, levels, levelsAll_numberedAll]

theorem levelsAll_numberedAll (next : Nat) (ts : List Tree) :
    levelsAll (numberedAll next ts) = levelsAll ts := by
  cases ts with
  | nil => rfl
  | cons t rest =>
    rw [numberedAll, levelsAll, levels_numbered, levelsAll_numberedAll, levelsAll]

end

/-- As many numbers as asked for, counting up from `next`. -/
def idsFrom (next count : Nat) : List NodeId :=
  (List.range' next count).map UInt32.ofNat

theorem idsFrom_add (next count count' : Nat) :
    idsFrom next (count + count') = idsFrom next count ++ idsFrom (next + count) count' := by
  rw [idsFrom, idsFrom, idsFrom, ← List.map_append, List.range'_append_1]

/-- Numbers below `2 ^ 32` are the positions themselves. -/
theorem toNat_idsFrom {count : Nat} (h : count ≤ 2 ^ (32 : Nat)) :
    (idsFrom 0 count).map UInt32.toNat = List.range count := by
  rw [idsFrom, List.map_map, List.range_eq_range']
  conv => rhs; rw [← List.map_id (List.range' 0 count)]
  refine List.map_congr_left fun i hi => ?_
  have hlt : i < 2 ^ (32 : Nat) := by
    have := List.mem_range'_1.1 hi
    omega
  exact UInt32.toNat_ofNat_of_lt hlt

mutual

/-- The numbers of a numbered tree count up in preorder. -/
theorem ids_numbered (next : Nat) (t : Tree) :
    (t.numbered next).preorder.map id = idsFrom next t.nodes := by
  cases t with
  | node number label children =>
    rw [numbered, preorder_node, List.map_cons, ids_numberedAll, nodes, idsFrom_add]
    rfl

theorem ids_numberedAll (next : Nat) (ts : List Tree) :
    (preorderAll (numberedAll next ts)).map id = idsFrom next (nodesAll ts) := by
  cases ts with
  | nil => rw [numberedAll, preorderAll]; rfl
  | cons t rest =>
    rw [numberedAll, preorderAll_cons, List.map_append, ids_numbered, ids_numberedAll, nodesAll,
      idsFrom_add]

end

mutual

/-- A tree whose numbers count up in preorder stays as it is when it is numbered. -/
theorem numbered_of_ids {next : Nat} {t : Tree} (h : t.preorder.map id = idsFrom next t.nodes) :
    t.numbered next = t := by
  cases t with
  | node number label children =>
    rw [preorder_node, nodes, idsFrom_add, List.map_cons] at h
    obtain ⟨hnumber, hbelow⟩ := List.cons.inj h
    obtain rfl : number = UInt32.ofNat next := hnumber
    rw [numbered, numberedAll_of_ids hbelow]

theorem numberedAll_of_ids {next : Nat} {ts : List Tree}
    (h : (preorderAll ts).map id = idsFrom next (nodesAll ts)) : numberedAll next ts = ts := by
  cases ts with
  | nil => rfl
  | cons t rest =>
    rw [preorderAll_cons, nodesAll, idsFrom_add, List.map_append] at h
    have hlength : (t.preorder.map id).length = (idsFrom next t.nodes).length := by
      rw [List.length_map, preorder_length, idsFrom, List.length_map, List.length_range']
    obtain ⟨hfirst, hrest⟩ := List.append_inj h hlength
    rw [numberedAll, numbered_of_ids hfirst, numberedAll_of_ids hrest]

end

theorem length_le_nodesAll (ts : List Tree) : ts.length ≤ nodesAll ts := by
  induction ts with
  | nil => exact Nat.le_refl 0
  | cons t rest ih =>
    have := nodes_pos t
    rw [List.length_cons, nodesAll]
    omega

theorem nodes_le_nodesAll {t : Tree} {ts : List Tree} (h : t ∈ ts) : t.nodes ≤ nodesAll ts := by
  induction ts with
  | nil => exact absurd h List.not_mem_nil
  | cons u rest ih =>
    rw [nodesAll]
    rcases List.mem_cons.1 h with rfl | h
    · exact Nat.le_add_right _ _
    · exact Nat.le_trans (ih h) (Nat.le_add_left _ _)

end ScoreScript.Tree
