import ScoreScript.Proofs.Tree.Subtrees

/-!
# Which nodes are reached

Whether the evaluation of a condition gets to a part of it can be told from the nodes above the part.
Nothing below a call is evaluated; the second operand of a conjunction is evaluated if the first one is
true, and that of a disjunction if the first one is false.  Nothing else stands in the way.

* `Tree.Passes` — the evaluation of a node gets to a part of it, as far as the node is concerned;
* `Tree.Reached` — all nodes let the evaluation pass;
* `Tree.reached_node` — from a node to its children, with one equation for each kind of condition;
* `Tree.OutermostBlock`, `Tree.outermostBlock_start` — the blocks that do not stand below others.
-/

namespace ScoreScript.Tree

/-! ### Conditions -/

/-- The node is a connective or a call, not only a wrapper around a condition. -/
def isEvaluated (t : Tree) : Bool :=
  match t.label with
  | .rule .conjunction | .rule .disjunction | .rule .negation | .rule (.predicate _) => true
  | _ => false

/-- The evaluation of `p` gets to the part `n`, as far as `p` itself is concerned, when conditions
come to what `comesTo` tells. -/
structure Passes (comesTo : Tree → Bool → Prop) (p n : Tree) : Prop where
  call : ∀ index, p.label = .rule (.predicate index) → ¬ p.Below n
  conjunction : ∀ x y, p.label = .rule .conjunction → p.children = [x, y] → n ∈ y.preorder →
    comesTo x true
  disjunction : ∀ x y, p.label = .rule .disjunction → p.children = [x, y] → n ∈ y.preorder →
    comesTo x false

/-- The node is a connective or a call of the condition, and all nodes let the evaluation pass to it. -/
structure Reached (comesTo : Tree → Bool → Prop) (condition n : Tree) : Prop where
  mem : n ∈ condition.preorder
  isEvaluated : n.isEvaluated = true
  passes : ∀ p ∈ condition.preorder, Passes comesTo p n

variable {comesTo : Tree → Bool → Prop} {number : NodeId} {label : Symbol} {parts : List Tree} {n : Tree}

/-- A node has nothing to say about what does not stand below it. -/
theorem passes_of_not_below {p : Tree} (h : ¬ p.Below n) : Passes comesTo p n := by
  have hoperand : ∀ x y, p.children = [x, y] → n ∉ y.preorder := by
    intro x y hchildren hn
    refine h (mem_preorderAll.2 ⟨y, ?_, hn⟩)
    rw [hchildren]
    exact List.mem_cons_of_mem _ List.mem_cons_self
  exact ⟨fun _ _ => h, fun x y _ hchildren hn => absurd hn (hoperand x y hchildren),
    fun x y _ hchildren hn => absurd hn (hoperand x y hchildren)⟩

/-- What is reached is the node itself, or it is reached in a child and the node lets it pass. -/
theorem reached_node (h : (node number label parts).Distinct) :
    Reached comesTo (node number label parts) n ↔
      (n = node number label parts ∧ n.isEvaluated = true) ∨
        ((∃ child ∈ parts, Reached comesTo child n) ∧ Passes comesTo (node number label parts) n) := by
  constructor
  · rintro ⟨hmem, hevaluated, hpasses⟩
    rcases mem_preorder_node.1 hmem with rfl | ⟨child, hchild, hn⟩
    · exact Or.inl ⟨rfl, hevaluated⟩
    · refine Or.inr ⟨⟨child, hchild, hn, hevaluated, fun p hp => ?_⟩, hpasses _ (mem_preorder_self _)⟩
      exact hpasses p (mem_preorder_of_mem_children hchild hp)
  · rintro (⟨rfl, hevaluated⟩ | ⟨⟨child, hchild, hn, hevaluated, hpasses⟩, hself⟩)
    · exact ⟨mem_preorder_self _, hevaluated,
        fun p hp => passes_of_not_below (not_below_of_mem_preorder hp)⟩
    · refine ⟨mem_preorder_of_mem_children hchild hn, hevaluated, fun p hp => ?_⟩
      rcases mem_preorder_node.1 hp with rfl | ⟨child', hchild', hp'⟩
      · exact hself
      · by_cases hbelow : p.Below n
        · -- the part stands in one child only, so the node above it stands there too
          have hn' := mem_preorder_trans hbelow.mem_preorder hp'
          obtain rfl := h.child_unique hchild hchild' hn hn'
          exact hpasses p hp'
        · exact passes_of_not_below hbelow

/-- What is reached in a node with an only child that always lets the evaluation pass. -/
theorem reached_only {t : Tree} (h : (node number label [t]).Distinct)
    (hpasses : Passes comesTo (node number label [t]) n) :
    Reached comesTo (node number label [t]) n ↔
      (n = node number label [t] ∧ n.isEvaluated = true) ∨ Reached comesTo t n := by
  rw [reached_node h, and_iff_left hpasses]
  simp only [List.mem_singleton, exists_eq_left]

/-- What is reached in a node with two operands that lets the evaluation pass to the second one if it
goes on. -/
theorem reached_both {x y : Tree} {goesOn : Prop} (h : (node number label [x, y]).Distinct)
    (hevaluated : (node number label [x, y]).isEvaluated = true)
    (hpasses : Passes comesTo (node number label [x, y]) n ↔ (n ∈ y.preorder → goesOn)) :
    Reached comesTo (node number label [x, y]) n ↔
      n = node number label [x, y] ∨ Reached comesTo x n ∨ (goesOn ∧ Reached comesTo y n) := by
  have hapart : n ∈ x.preorder → n ∉ y.preorder :=
    (List.pairwise_cons.1 h.pairwise_children).1 y List.mem_cons_self n
  rw [reached_node h, hpasses]
  constructor
  · rintro (⟨rfl, _⟩ | ⟨⟨child, hchild, hn⟩, hgoes⟩)
    · exact Or.inl rfl
    · rcases List.mem_cons.1 hchild with rfl | hchild
      · exact Or.inr (Or.inl hn)
      · rw [List.mem_singleton.1 hchild] at hn
        exact Or.inr (Or.inr ⟨hgoes hn.mem, hn⟩)
  · rintro (rfl | hn | ⟨hgoes, hn⟩)
    · exact Or.inl ⟨rfl, hevaluated⟩
    · exact Or.inr ⟨⟨x, List.mem_cons_self, hn⟩, fun hy => absurd hy (hapart hn.mem)⟩
    · exact Or.inr ⟨⟨y, List.mem_cons_of_mem _ List.mem_cons_self, hn⟩, fun _ => hgoes⟩

theorem reached_wrapper {r : Rule} {t : Tree} (h : (node number (.rule r) [t]).Distinct)
    (hr : r = .condition ∨ r = .atom ∨ r = .call) :
    Reached comesTo (node number (.rule r) [t]) n ↔ Reached comesTo t n := by
  have hpasses : Passes comesTo (node number (.rule r) [t]) n := by
    rcases hr with rfl | rfl | rfl <;> constructor <;> simp [Tree.label]
  have hother : ¬ (n = node number (.rule r) [t] ∧ n.isEvaluated = true) := by
    rintro ⟨rfl, hevaluated⟩
    rcases hr with rfl | rfl | rfl <;> cases hevaluated
  rw [reached_only h hpasses, or_iff_right hother]

theorem reached_negation {x : Tree} (h : (node number (.rule .negation) [x]).Distinct) :
    Reached comesTo (node number (.rule .negation) [x]) n ↔
      n = node number (.rule .negation) [x] ∨ Reached comesTo x n := by
  have hpasses : Passes comesTo (node number (.rule .negation) [x]) n := by
    constructor <;> simp [Tree.label]
  rw [reached_only h hpasses, and_iff_left_of_imp]
  rintro rfl
  rfl

theorem reached_conjunction {x y : Tree} (h : (node number (.rule .conjunction) [x, y]).Distinct) :
    Reached comesTo (node number (.rule .conjunction) [x, y]) n ↔
      n = node number (.rule .conjunction) [x, y] ∨ Reached comesTo x n ∨
        (comesTo x true ∧ Reached comesTo y n) := by
  refine reached_both h rfl ⟨fun hpasses => hpasses.conjunction x y rfl rfl, fun hgoes => ?_⟩
  constructor
  · simp [Tree.label]
  · rintro x' y' _ hchildren hn
    obtain ⟨rfl, rfl⟩ : x = x' ∧ y = y' := by simpa [children] using hchildren
    exact hgoes hn
  · simp [Tree.label]

theorem reached_disjunction {x y : Tree} (h : (node number (.rule .disjunction) [x, y]).Distinct) :
    Reached comesTo (node number (.rule .disjunction) [x, y]) n ↔
      n = node number (.rule .disjunction) [x, y] ∨ Reached comesTo x n ∨
        (comesTo x false ∧ Reached comesTo y n) := by
  refine reached_both h rfl ⟨fun hpasses => hpasses.disjunction x y rfl rfl, fun hgoes => ?_⟩
  constructor
  · simp [Tree.label]
  · simp [Tree.label]
  · rintro x' y' _ hchildren hn
    obtain ⟨rfl, rfl⟩ : x = x' ∧ y = y' := by simpa [children] using hchildren
    exact hgoes hn

theorem reached_call {index : Nat}
    (h : (node number (.rule (.predicate index)) parts).Distinct) :
    Reached comesTo (node number (.rule (.predicate index)) parts) n ↔
      n = node number (.rule (.predicate index)) parts := by
  rw [reached_node h]
  constructor
  · rintro (⟨rfl, _⟩ | ⟨⟨child, hchild, hn⟩, hpasses⟩)
    · rfl
    · exact absurd (below_node.2 ⟨child, hchild, hn.mem⟩) (hpasses.call index rfl)
  · rintro rfl
    exact Or.inl ⟨rfl, rfl⟩

/-! ### Blocks -/

/-- A block that does not stand below another block. -/
structure OutermostBlock (t b : Tree) : Prop where
  mem : b ∈ t.preorder
  label_eq : b.label = .rule .block
  outermost : ∀ b' ∈ t.preorder, b'.label = .rule .block → ¬ b'.Below b

/-- A single block is its own outermost block. -/
theorem outermostBlock_self {t b : Tree} (ht : t.label = .rule .block) :
    t.OutermostBlock b ↔ b = t := by
  constructor
  · intro h
    rcases mem_preorder_iff.1 h.mem with hb | hbelow
    · exact hb
    · exact absurd hbelow (h.outermost t (mem_preorder_self t) ht)
  · rintro rfl
    exact ⟨mem_preorder_self b, ht, fun b' hb' _ => not_below_of_mem_preorder hb'⟩

/-- The outermost blocks below a start with blocks only are its children. -/
theorem outermostBlock_start {b : Tree} (h : (node number (.rule .start) parts).Distinct)
    (hparts : ∀ u ∈ parts, u.label = .rule .block) :
    (node number (.rule .start) parts).OutermostBlock b ↔ b ∈ parts := by
  constructor
  · intro hb
    rcases mem_preorder_node.1 hb.mem with rfl | ⟨u, hu, hmem⟩
    · cases hb.label_eq
    · rcases mem_preorder_iff.1 hmem with rfl | hbelow
      · exact hu
      · have hu' : u ∈ (node number (.rule .start) parts).preorder :=
          mem_preorder_of_mem_children hu (mem_preorder_self u)
        exact absurd hbelow (hb.outermost u hu' (hparts u hu))
  · intro hb
    refine ⟨mem_preorder_of_mem_children hb (mem_preorder_self b), hparts b hb, ?_⟩
    intro b' hb' hblock hbelow
    rcases mem_preorder_node.1 hb' with rfl | ⟨u, hu, hmem⟩
    · cases hblock
    · -- the block stands in one child only, which is the block itself
      have hb'' := mem_preorder_trans hbelow.mem_preorder hmem
      obtain rfl := h.child_unique hb hu (mem_preorder_self b) hb''
      exact not_below_of_mem_preorder hmem hbelow

end ScoreScript.Tree
