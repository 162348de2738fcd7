import ScoreScript.Tree.Basic

/-!
# Parts of trees

What the label of a node says about the literal, the operator and the comparison that are read off
a tree.

* `Tree.children_induction` — from the children of a node to the node;
* `Tree.literal?_of_label`, `Tree.comparator?_of_label` — what a terminal stands for;
* `Tree.exists_only`, `Tree.exists_both`, `Tree.forall_of_replicate` — what holds of children under
  the rules that label them;
* `Tree.splitComparison_eq_none` — without an operator everything is an argument;
* `Tree.splitComparison_append` — an operator in the last but one place starts the comparison;
* `Tree.literal?_mapIds`, `Tree.splitComparison_map` — other numbers change none of this.
-/

namespace ScoreScript.Tree

/-- What passes from the children of every node to the node holds of all trees. -/
@[elab_as_elim]
theorem children_induction {motive : Tree → Prop}
    (node : ∀ id label children, (∀ t ∈ children, motive t) → motive (.node id label children))
    (t : Tree) : motive t :=
  match t with
  | .node id label children => node id label children fun child _ => children_induction node child

/-! ### Labels -/

theorem literal?_of_label {t : Tree} {value : Literal} (h : t.label = .terminal (.value value)) :
    t.literal? = some value := by
  obtain ⟨id, label, children⟩ := t
  subst h
  rw [literal?]

theorem comparator?_of_label {t : Tree} {op : Comparator} (h : t.label = .terminal (.op op)) :
    t.comparator? = some op := by
  obtain ⟨id, label, children⟩ := t
  subst h
  rw [comparator?]

theorem terminal?_of_label {t : Tree} {term : Terminal} (h : t.label = .terminal term) :
    t.terminal? = some term := by
  rw [terminal?, h, Symbol.terminal?]

theorem integer?_of_literal? {t : Tree} {value : Int64} (h : t.literal? = some (.int value)) :
    t.integer? = some value.toInt := by
  rw [integer?, h]

theorem integer?_eq_some {t : Tree} {delta : Int} (h : t.integer? = some delta) :
    ∃ value : Int64, t.literal? = some (.int value) ∧ value.toInt = delta := by
  unfold integer? at h
  split at h
  · rename_i value hvalue
    exact ⟨value, hvalue, Option.some.inj h⟩
  · exact absurd h (by simp)

theorem literal?_only (id : NodeId) (r : Rule) (t : Tree) :
    (node id (.rule r) [t]).literal? = t.literal? := by
  rw [literal?]

theorem comparator?_only (id : NodeId) (r : Rule) (t : Tree) :
    (node id (.rule r) [t]).comparator? = t.comparator? := by
  rw [comparator?]

theorem integer?_only (id : NodeId) (r : Rule) (t : Tree) :
    (node id (.rule r) [t]).integer? = t.integer? := by
  rw [integer?, literal?_only, integer?]

/-! ### Labels of children -/

theorem map_label_eq_nil {ts : List Tree} (h : ts.map label = []) : ts = [] :=
  List.map_eq_nil_iff.1 h

theorem map_label_eq_one {ts : List Tree} {a : Symbol} (h : ts.map label = [a]) :
    ∃ t, ts = [t] ∧ t.label = a :=
  List.map_eq_singleton_iff.1 h

theorem map_label_eq_two {ts : List Tree} {a b : Symbol} (h : ts.map label = [a, b]) :
    ∃ t u, ts = [t, u] ∧ t.label = a ∧ u.label = b := by
  obtain ⟨t, rest, rfl, ht, hrest⟩ := List.map_eq_cons_iff.1 h
  obtain ⟨u, rfl, hu⟩ := map_label_eq_one hrest
  exact ⟨t, u, rfl, ht, hu⟩

section Children

variable {P : Rule → Tree → Prop} {ts : List Tree}
  (hchildren : ∀ t ∈ ts, ∀ r, t.label = .rule r → P r t)

include hchildren

theorem exists_only {r : Rule} (hlabels : ts.map label = [.rule r]) : ∃ t, ts = [t] ∧ P r t := by
  obtain ⟨t, rfl, ht⟩ := map_label_eq_one hlabels
  exact ⟨t, rfl, hchildren t List.mem_cons_self r ht⟩

theorem exists_both {r r' : Rule} (hlabels : ts.map label = [.rule r, .rule r']) :
    ∃ t u, ts = [t, u] ∧ P r t ∧ P r' u := by
  obtain ⟨t, u, rfl, ht, hu⟩ := map_label_eq_two hlabels
  exact ⟨t, u, rfl, hchildren t List.mem_cons_self r ht,
    hchildren u (List.mem_cons_of_mem _ List.mem_cons_self) r' hu⟩

theorem forall_of_replicate {r : Rule} {count : Nat}
    (hlabels : ts.map label = List.replicate count (.rule r)) : ∀ t ∈ ts, P r t := by
  intro t ht
  have hlabel := List.mem_map_of_mem (f := label) ht
  rw [hlabels] at hlabel
  exact hchildren t ht r (List.eq_of_mem_replicate hlabel)

end Children

/-! ### Comparisons -/

theorem splitComparison_eq_none {ts : List Tree} (h : ∀ t ∈ ts, t.isComparator = false) :
    splitComparison ts = (ts, none) := by
  fun_induction splitComparison ts with
  | case1 => rfl
  | case2 t => rfl
  | case3 op value hop => rw [h op List.mem_cons_self] at hop; exact absurd hop (by decide)
  | case4 op value hop => rfl
  | case5 t rest _ _ arguments comparison hsplit ih =>
    rw [ih fun u hu => h u (List.mem_cons_of_mem _ hu)] at hsplit
    obtain ⟨rfl, rfl⟩ := Prod.mk.inj hsplit
    rfl

theorem splitComparison_cons {t : Tree} {ts : List Tree} (h : 2 ≤ ts.length) :
    splitComparison (t :: ts) = (t :: (splitComparison ts).1, (splitComparison ts).2) := by
  rw [splitComparison]
  · rintro rfl
    exact absurd h (by decide)
  · rintro value rfl
    exact absurd h (Nat.not_succ_le_self 1)

theorem splitComparison_append {ts : List Tree} {op value : Tree} (h : op.isComparator = true) :
    splitComparison (ts ++ [op, value]) = (ts, some (op, value)) := by
  induction ts with
  | nil => rw [List.nil_append, splitComparison, if_pos h]
  | cons t rest ih =>
    have hlen : 2 ≤ (rest ++ [op, value]).length := by
      rw [List.length_append]
      exact Nat.le_add_left 2 rest.length
    rw [List.cons_append, splitComparison_cons hlen, ih]

/-! ### Other numbers -/

theorem mapIdsAll_eq_map (f : NodeId → NodeId) (ts : List Tree) :
    mapIdsAll f ts = ts.map (mapIds f) := by
  induction ts with
  | nil => rw [mapIdsAll, List.map_nil]
  | cons t rest ih => rw [mapIdsAll, ih, List.map_cons]

theorem mapIds_node (f : NodeId → NodeId) (id : NodeId) (label : Symbol) (children : List Tree) :
    (node id label children).mapIds f = node (f id) label (children.map (mapIds f)) := by
  rw [mapIds, mapIdsAll_eq_map]

theorem label_mapIds (f : NodeId → NodeId) (t : Tree) : (t.mapIds f).label = t.label := by
  obtain ⟨id, label, children⟩ := t
  rw [mapIds_node, Tree.label, Tree.label]

theorem rule?_mapIds (f : NodeId → NodeId) (t : Tree) : (t.mapIds f).rule? = t.rule? := by
  rw [rule?, label_mapIds, rule?]

theorem terminal?_mapIds (f : NodeId → NodeId) (t : Tree) :
    (t.mapIds f).terminal? = t.terminal? := by
  rw [terminal?, label_mapIds, terminal?]

theorem isComparator_mapIds (f : NodeId → NodeId) (t : Tree) :
    (t.mapIds f).isComparator = t.isComparator := by
  rw [isComparator, label_mapIds, isComparator]

theorem literal?_mapIds (f : NodeId → NodeId) (t : Tree) :
    (t.mapIds f).literal? = t.literal? := by
  fun_induction literal? t with
  | case1 id value children => rw [mapIds_node, literal?]
  | case2 id term children hterm => rw [mapIds_node, literal?]; exact hterm
  | case3 id r only ih => rw [mapIds_node, List.map_singleton, literal?, ih]
  | case4 id r children hone =>
    rw [mapIds_node, literal?]
    intro only' honly'
    obtain ⟨only, honly, _⟩ := List.map_eq_singleton_iff.1 honly'
    exact hone only honly

theorem comparator?_mapIds (f : NodeId → NodeId) (t : Tree) :
    (t.mapIds f).comparator? = t.comparator? := by
  fun_induction comparator? t with
  | case1 id op children => rw [mapIds_node, comparator?]
  | case2 id term children hterm => rw [mapIds_node, comparator?]; exact hterm
  | case3 id r only ih => rw [mapIds_node, List.map_singleton, comparator?, ih]
  | case4 id r children hone =>
    rw [mapIds_node, comparator?]
    intro only' honly'
    obtain ⟨only, honly, _⟩ := List.map_eq_singleton_iff.1 honly'
    exact hone only honly

theorem integer?_mapIds (f : NodeId → NodeId) (t : Tree) :
    (t.mapIds f).integer? = t.integer? := by
  rw [integer?, literal?_mapIds, integer?]

theorem splitComparison_map (f : NodeId → NodeId) (ts : List Tree) :
    splitComparison (ts.map (mapIds f)) =
      ((splitComparison ts).1.map (mapIds f),
        (splitComparison ts).2.map (Prod.map (mapIds f) (mapIds f))) := by
  fun_induction splitComparison ts with
  | case1 => rfl
  | case2 t => rfl
  | case3 op value h =>
    rw [List.map_cons, List.map_singleton, splitComparison, if_pos]
    · rfl
    · rw [isComparator_mapIds, h]
  | case4 op value h =>
    rw [List.map_cons, List.map_singleton, splitComparison, if_neg]
    · rfl
    · rw [isComparator_mapIds]
      exact h
  | case5 t rest hone htwo arguments comparison hsplit ih =>
    rw [hsplit] at ih
    rw [List.map_cons, splitComparison, ih]
    · rfl
    · intro hnil
      exact hone (List.map_eq_nil_iff.1 hnil)
    · intro value' hvalue'
      obtain ⟨value, hvalue, _⟩ := List.map_eq_singleton_iff.1 hvalue'
      exact htwo value hvalue

end ScoreScript.Tree
