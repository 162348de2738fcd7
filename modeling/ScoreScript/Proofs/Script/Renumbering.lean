import ScoreScript.Proofs.Script.Texts
import ScoreScript.Proofs.Script.Typing
import ScoreScript.Proofs.Tree.Numbering
import ScoreScript.Proofs.Tree.Parts

/-!
# Trees with other numbers

Giving the nodes of a tree other numbers changes neither its text nor whether it compiles, and the
blocks that it compiles to differ in nothing but their numbers.

* `Tree.alike_iff` — trees are alike when they agree once all numbers are the same;
* `Tree.render_mapIds` — the text of a tree with other numbers;
* `Tree.compile_mapIds` — its blocks.
-/

namespace ScoreScript

namespace Tree

/-! ### Trees without numbers -/

/-- The tree with the same number everywhere. -/
def unnumbered (t : Tree) : Tree :=
  t.mapIds fun _ => 0

theorem alikeAll_iff_of {ts : List Tree}
    (h : ∀ t ∈ ts, ∀ u, alike t u = true ↔ t.unnumbered = u.unnumbered) (us : List Tree) :
    alikeAll ts us = true ↔ ts.map unnumbered = us.map unnumbered := by
  induction ts generalizing us with
  | nil => cases us <;> simp [alikeAll]
  | cons t rest ih =>
    cases us with
    | nil => simp [alikeAll]
    | cons u us =>
      have hrest := ih (fun v hv => h v (List.mem_cons_of_mem _ hv)) us
      rw [alikeAll, Bool.and_eq_true, h t List.mem_cons_self, hrest, List.map_cons, List.map_cons,
        List.cons.injEq]

/-- Trees are alike when nothing but their numbers tells them apart. -/
theorem alike_iff (t u : Tree) : alike t u = true ↔ t.unnumbered = u.unnumbered := by
  induction t using children_induction generalizing u with
  | node id label children ih =>
    obtain ⟨id', label', children'⟩ := u
    have hchildren : alikeAll children children' = true ↔
        children.map (mapIds fun _ => 0) = children'.map (mapIds fun _ => 0) :=
      alikeAll_iff_of ih children'
    rw [alike, Bool.and_eq_true, beq_iff_eq, hchildren, unnumbered, unnumbered, mapIds_node,
      mapIds_node, Tree.node.injEq]
    exact ⟨fun h => ⟨rfl, h⟩, fun h => h.2⟩

theorem map_unnumbered_numberedAll {ts : List Tree}
    (h : ∀ t ∈ ts, ∀ next, (t.numbered next).unnumbered = t.unnumbered) (next : Nat) :
    (numberedAll next ts).map unnumbered = ts.map unnumbered := by
  induction ts generalizing next with
  | nil => rfl
  | cons t rest ih =>
    rw [numberedAll, List.map_cons, List.map_cons, h t List.mem_cons_self,
      ih fun u hu => h u (List.mem_cons_of_mem _ hu)]

theorem unnumbered_numbered (next : Nat) (t : Tree) :
    (t.numbered next).unnumbered = t.unnumbered := by
  induction t using children_induction generalizing next with
  | node id label children ih =>
    have hchildren : (numberedAll (next + 1) children).map (mapIds fun _ => 0) =
        children.map (mapIds fun _ => 0) :=
      map_unnumbered_numberedAll ih (next + 1)
    rw [numbered, unnumbered, mapIds_node, hchildren, unnumbered, mapIds_node]

/-! ### Texts -/

theorem renderAll_map {f : NodeId → NodeId} {ts : List Tree}
    (h : ∀ t ∈ ts, (t.mapIds f).render = t.render) :
    renderAll (ts.map (mapIds f)) = renderAll ts := by
  induction ts with
  | nil => rfl
  | cons t rest ih =>
    rw [List.map_cons, renderAll, renderAll, h t List.mem_cons_self,
      ih fun u hu => h u (List.mem_cons_of_mem _ hu)]

/-- The numbers do not show in the text. -/
theorem render_mapIds (f : NodeId → NodeId) (t : Tree) : (t.mapIds f).render = t.render := by
  induction t using children_induction with
  | node id label children ih =>
    rw [mapIds_node]
    cases label with
    | terminal term => rw [render, render]
    | rule r =>
      cases r with
      | block | conjunction | disjunction =>
        match children, ih with
        | [], _ => rfl
        | [a], _ => rfl
        | [a, b], ih =>
          rw [List.map_cons, List.map_singleton, render, render, ih a (by simp), ih b (by simp)]
        | a :: b :: c :: rest, _ =>
          rw [List.map_cons, List.map_cons, List.map_cons, render, render]
          all_goals simp
      | negation =>
        match children, ih with
        | [], _ => rfl
        | [a], ih => rw [List.map_singleton, render, render, ih a (by simp)]
        | a :: b :: rest, _ =>
          rw [List.map_cons, List.map_cons, render, render]
          all_goals simp
      | adjustment =>
        match children with
        | [] => rfl
        | [amount] => rw [List.map_singleton, render, render, integer?_mapIds]
        | a :: b :: rest =>
          rw [List.map_cons, List.map_cons, render, render]
          all_goals simp
      | predicate i =>
        match children, ih with
        | [], _ => rfl
        | node nameId (.rule r) below :: rest, _ => rfl
        | node nameId (.terminal term) below :: rest, ih =>
          have hrest := renderAll_map fun t ht => ih t (List.mem_cons_of_mem _ ht)
          rw [List.map_cons, mapIds_node]
          cases term with
          | name text =>
            rw [render, render, hrest, splitComparison_map, Option.isSome_map]
          | _ => rfl
      | _ =>
        rw [render, render, renderAll_map ih]
        all_goals simp

theorem render_unnumbered (t : Tree) : t.unnumbered.render = t.render :=
  render_mapIds (fun _ => 0) t

end Tree

/-! ### Blocks -/

/-- The condition with every number replaced by its image. -/
def Condition.mapIds (f : NodeId → NodeId) : Condition → Condition
  | call id c => call (f id) c
  | compare id c op value => compare (f id) c op value
  | and id a b => and (f id) (a.mapIds f) (b.mapIds f)
  | or id a b => or (f id) (a.mapIds f) (b.mapIds f)
  | not id a => not (f id) (a.mapIds f)

/-- The block with every number replaced by its image. -/
def Block.mapIds (f : NodeId → NodeId) (b : Block) : Block :=
  ⟨f b.id, b.condition.mapIds f, b.delta⟩

theorem compileArguments_map (f : NodeId → NodeId) (params : List Param) (ts : List Tree) :
    compileArguments params (ts.map (Tree.mapIds f)) = compileArguments params ts := by
  induction params generalizing ts with
  | nil => rw [compileArguments, compileArguments] <;> simp
  | cons param params ih =>
    cases ts with
    | nil => rw [List.map_nil]
    | cons t rest =>
      rw [List.map_cons]
      cases param with
      | state | action => rw [compileArguments, compileArguments, Tree.terminal?_mapIds, ih]
      | choice kind => rw [compileArguments, compileArguments, Tree.literal?_mapIds, ih]

theorem compileCall_map (f : NodeId → NodeId) (id : NodeId) (r : Rule) (target : Nat)
    (p : Predicate) (arguments : List Tree) (comparison : Option (Tree × Tree)) :
    compileCall (f id) r target p (arguments.map (Tree.mapIds f))
        (comparison.map (Prod.map (Tree.mapIds f) (Tree.mapIds f))) =
      (compileCall id r target p arguments comparison).map (Condition.mapIds f) := by
  unfold compileCall
  rw [List.length_map, compileArguments_map]
  by_cases hlen : arguments.length ≠ p.params.length
  · rw [if_pos hlen, if_pos hlen]
    rfl
  rw [if_neg hlen, if_neg hlen]
  cases compileArguments p.params arguments with
  | error e => rfl
  | ok values =>
    cases comparison with
    | none => cases hclass : p.returns.kindClass <;> simp only [Option.map_none] <;> rfl
    | some pair =>
      obtain ⟨opNode, valueNode⟩ := pair
      cases hclass : p.returns.kindClass with
      | boolean => rfl
      | numeric =>
        simp only [Option.map_some, Prod.map_apply, Tree.comparator?_mapIds, Tree.literal?_mapIds,
          reduceCtorEq, false_and, if_false]
        cases opNode.comparator? with
        | none => rfl
        | some op =>
          cases valueNode.literal? with
          | none => rfl
          | some value => cases hlegal : checkLegal p.returns value <;> simp only [hlegal] <;> rfl
      | enumerated =>
        simp only [Option.map_some, Prod.map_apply, Tree.comparator?_mapIds, Tree.literal?_mapIds,
          true_and]
        cases opNode.comparator? with
        | none => rfl
        | some op =>
          cases hequality : op.isEquality with
          | false => simp only [hequality]; rfl
          | true =>
            cases valueNode.literal? with
            | none => simp only [hequality]; rfl
            | some value =>
              cases hlegal : checkLegal p.returns value <;> simp only [hequality, hlegal] <;> rfl

namespace Tree

theorem compileCondition_mapIds (f : NodeId → NodeId) (ps : List Predicate) (t : Tree) :
    (t.mapIds f).compileCondition ps = (t.compileCondition ps).map (Condition.mapIds f) := by
  fun_induction compileCondition ps t with
  | case1 id term children => rw [mapIds_node, compileCondition]; rfl
  | case2 id t ih | case3 id t ih | case4 id t ih =>
    rw [mapIds_node, List.map_singleton, compileCondition, ih]
  | case5 id a b iha ihb => 
    rw [mapIds_node, List.map_cons, List.map_singleton, compileCondition, iha, ihb]
    cases a.compileCondition ps with
    | error e => rfl
    | ok x => cases b.compileCondition ps <;> rfl
  | case6 id a b iha ihb => 
    rw [mapIds_node, List.map_cons, List.map_singleton, compileCondition, iha, ihb]
    cases a.compileCondition ps with
    | error e => rfl
    | ok x => cases b.compileCondition ps <;> rfl
  | case7 id a ih =>
    rw [mapIds_node, List.map_singleton, compileCondition, ih]
    cases a.compileCondition ps <;> rfl
  | case8 id i nameId name below rest h =>
    rw [mapIds_node, List.map_cons, mapIds_node, compileCondition, h]
    rfl
  | case9 id i nameId name below rest target p h arguments comparison hsplit =>
    rw [mapIds_node, List.map_cons, mapIds_node, compileCondition, h, splitComparison_map, hsplit]
    exact compileCall_map f id (.predicate i) target p arguments comparison
  | case10 id r children h1 h2 h3 h4 h5 h6 h7 =>
    have hone : ∀ u, children.map (mapIds f) = [u] → ∃ t, children = [t] := by
      intro u hu
      obtain ⟨t, ht, _⟩ := List.map_eq_singleton_iff.1 hu
      exact ⟨t, ht⟩
    have htwo : ∀ u v, children.map (mapIds f) = [u, v] → ∃ a b, children = [a, b] := by
      intro u v huv
      obtain ⟨a, rest, rfl, _, hrest⟩ := List.map_eq_cons_iff.1 huv
      obtain ⟨b, rfl, _⟩ := List.map_eq_singleton_iff.1 hrest
      exact ⟨a, b, rfl⟩
    rw [mapIds_node, compileCondition]
    · rfl
    · exact fun u hu => (hone u hu).elim h1
    · exact fun u hu => (hone u hu).elim h2
    · exact fun u hu => (hone u hu).elim h3
    · exact fun u v huv => (htwo u v huv).elim fun a h => h.elim (h4 a)
    · exact fun u v huv => (htwo u v huv).elim fun a h => h.elim (h5 a)
    · exact fun u hu => (hone u hu).elim h6
    · intro i nameId name below rest' hcall
      obtain ⟨⟨headId, label, under⟩, rest, rfl, hhead, _⟩ := List.map_eq_cons_iff.1 hcall
      rw [mapIds_node] at hhead
      obtain ⟨_, rfl, _⟩ := Tree.node.inj hhead
      exact h7 i headId name under rest rfl

theorem compileDelta_mapIds (f : NodeId → NodeId) (range : Int) (t : Tree) :
    (t.mapIds f).compileDelta range = t.compileDelta range := by
  rw [compileDelta, integer?_mapIds, rule?_mapIds, compileDelta]

theorem compileBlock_mapIds (f : NodeId → NodeId) (ps : List Predicate) (range : Int) (t : Tree) :
    (t.mapIds f).compileBlock ps range = (t.compileBlock ps range).map (Block.mapIds f) := by
  fun_cases compileBlock ps range t with
  | case1 id condition body =>
    rw [mapIds_node, List.map_cons, List.map_singleton, compileBlock, compileCondition_mapIds,
      compileDelta_mapIds]
    cases condition.compileCondition ps with
    | error e => rfl
    | ok c => cases body.compileDelta range <;> rfl
  | case2 _ hblock =>
    obtain ⟨id, label, children⟩ := t
    rw [mapIds_node, compileBlock]
    · rfl
    · intro id' condition' body' h
      obtain ⟨_, rfl, hchildren⟩ := Tree.node.inj h
      obtain ⟨condition, rest, rfl, _, hrest⟩ := List.map_eq_cons_iff.1 hchildren
      obtain ⟨body, rfl, _⟩ := List.map_eq_singleton_iff.1 hrest
      exact hblock id condition body rfl

theorem mapM_compileBlock_map (f : NodeId → NodeId) (ps : List Predicate) (range : Int)
    (ts : List Tree) :
    (ts.map (mapIds f)).mapM (compileBlock ps range) =
      (ts.mapM (compileBlock ps range)).map (List.map (Block.mapIds f)) := by
  induction ts with
  | nil => rfl
  | cons t rest ih =>
    rw [List.map_cons, List.mapM_cons, List.mapM_cons, ih, compileBlock_mapIds]
    cases t.compileBlock ps range with
    | error e => rfl
    | ok block => cases rest.mapM (compileBlock ps range) <;> rfl

/-- The blocks of a tree with other numbers are the blocks with other numbers. -/
theorem compile_mapIds (f : NodeId → NodeId) (ps : List Predicate) (range : Int) (t : Tree) :
    (t.mapIds f).compile ps range = (t.compile ps range).map (List.map (Block.mapIds f)) := by
  fun_cases compile ps range t with
  | case1 id blocks => rw [mapIds_node, compile, mapM_compileBlock_map]
  | case2 id children =>
    rw [mapIds_node, compile, ← mapIds_node, compileBlock_mapIds]
    cases (node id (.rule .block) children).compileBlock ps range <;> rfl
  | case3 id children r hstart hblock =>
    rw [mapIds_node, compile]
    · rfl
    · exact hstart
    · exact hblock
  | case4 id children term =>
    rw [mapIds_node, compile]
    rfl

end Tree

/-- The condition with the same number everywhere. -/
def Condition.unnumbered (c : Condition) : Condition :=
  c.mapIds fun _ => 0

/-- The block with the same number everywhere. -/
def Block.unnumbered (b : Block) : Block :=
  b.mapIds fun _ => 0

theorem Tree.compile_unnumbered (ps : List Predicate) (range : Int) (t : Tree) :
    t.unnumbered.compile ps range = (t.compile ps range).map (List.map Block.unnumbered) :=
  compile_mapIds (fun _ => 0) ps range t

end ScoreScript
