import ScoreScript.Compiled.Compile
import ScoreScript.Proofs.Result

/-!
# Well-typed scripts

What the compiler promises of the blocks that it makes: calls refer to declared predicates and pass
legal literals, truth values stand alone, other results are compared with a literal of their own
kind by an operator of their class, and adjustments are in range.

* `Call.WellTyped`, `Condition.WellTyped`, `Block.WellTyped` — these promises, part by part;
* `compileArguments_eq_ok` — which arguments compile, and what of them;
* `compileCall_eq_ok`, `CompiledCall.compileCall_eq` — which calls compile, and what of them;
* `Tree.compileCondition_wellTyped`, `Tree.compile_wellTyped` — whatever compiles keeps them.
-/

namespace ScoreScript

variable {ps : List Predicate}

/-- The call refers to a declared predicate, and its literals are legal. -/
structure Call.WellTyped (ps : List Predicate) (c : Call) : Prop where
  declared : ps[c.target]? = some c.predicate
  legal : List.Forall₂ (fun kind value => kind.contains value = true) c.predicate.choices
    c.arguments

/-- Every result is used as its kind allows. -/
def Condition.WellTyped (ps : List Predicate) : Condition → Prop
  | .call _ c => c.WellTyped ps ∧ c.predicate.returns.kindClass = .boolean
  | .compare _ c op value =>
    c.WellTyped ps ∧ c.predicate.returns.kindClass ≠ .boolean ∧
      (c.predicate.returns.kindClass = .enumerated → op.isEquality = true) ∧
      c.predicate.returns.contains value = true
  | .and _ a b => a.WellTyped ps ∧ b.WellTyped ps
  | .or _ a b => a.WellTyped ps ∧ b.WellTyped ps
  | .not _ a => a.WellTyped ps

/-- The condition is well typed, and the adjustment is in range. -/
structure Block.WellTyped (ps : List Predicate) (range : Int) (b : Block) : Prop where
  condition : b.condition.WellTyped ps
  neg_le : -range ≤ b.delta
  le : b.delta ≤ range

/-! ### Calls -/

theorem checkLegal_eq_ok_iff {kind : Kind} {value : Literal} :
    checkLegal kind value = .ok () ↔ kind.contains value = true := by
  unfold checkLegal
  split
  · rename_i h
    simp [h]
  · rename_i h
    simp [h]

/-- What compiled arguments are: every node fits its parameter, and the literals are those of the
choices. -/
inductive CompiledArguments : List Param → List Tree → List Literal → Prop
  | nil : CompiledArguments [] [] []
  | state {params : List Param} {t : Tree} {rest : List Tree} {values : List Literal} :
    t.terminal? = some .state → CompiledArguments params rest values →
    CompiledArguments (.state :: params) (t :: rest) values
  | action {params : List Param} {t : Tree} {rest : List Tree} {values : List Literal} :
    t.terminal? = some .action → CompiledArguments params rest values →
    CompiledArguments (.action :: params) (t :: rest) values
  | choice {kind : Kind} {params : List Param} {t : Tree} {rest : List Tree} {value : Literal}
    {values : List Literal} :
    t.literal? = some value → kind.contains value = true → CompiledArguments params rest values →
    CompiledArguments (.choice kind :: params) (t :: rest) (value :: values)

theorem compileArguments_eq_ok {params : List Param} {ts : List Tree} {values : List Literal}
    (hlen : ts.length = params.length) (h : compileArguments params ts = .ok values) :
    CompiledArguments params ts values := by
  induction params generalizing ts values with
  | nil =>
    obtain rfl := List.eq_nil_of_length_eq_zero hlen
    rw [compileArguments] at h
    · rw [← Except.ok.inj h]
      exact .nil
    all_goals simp
  | cons param params ih =>
    cases ts with
    | nil => cases hlen
    | cons t rest =>
      have hrest : rest.length = params.length := Nat.succ.inj hlen
      cases param with
      | state =>
        rw [compileArguments] at h
        split at h
        · rename_i hterminal
          exact .state hterminal (ih hrest h)
        · cases h
      | action =>
        rw [compileArguments] at h
        split at h
        · rename_i hterminal
          exact .action hterminal (ih hrest h)
        · cases h
      | choice kind =>
        rw [compileArguments] at h
        cases hvalue : t.literal? with
        | none =>
          rw [hvalue] at h
          cases h
        | some value =>
          rw [hvalue] at h
          obtain ⟨_, hlegal, h⟩ := Result.bind_eq_ok_iff.1 h
          obtain ⟨values', hvalues, h⟩ := Result.bind_eq_ok_iff.1 h
          rw [← Result.pure_eq_ok_iff.1 h]
          exact .choice hvalue (checkLegal_eq_ok_iff.1 hlegal) (ih hrest hvalues)

theorem CompiledArguments.legal {params : List Param} {ts : List Tree} {values : List Literal}
    (h : CompiledArguments params ts values) :
    List.Forall₂ (fun kind value => kind.contains value = true) (params.filterMap Param.choice?)
      values := by
  induction h with
  | nil => exact .nil
  | state _ _ ih | action _ _ ih => exact ih
  | choice _ hlegal _ ih => exact .cons hlegal ih

/-- What a compiled call is: a bare call of a truth value, or a comparison that its kind allows. -/
inductive CompiledCall (id : NodeId) (target : Nat) (p : Predicate) (arguments : List Tree) :
    Option (Tree × Tree) → Condition → Prop
  | bare {values : List Literal} :
    arguments.length = p.params.length → compileArguments p.params arguments = .ok values →
    p.returns.kindClass = .boolean →
    CompiledCall id target p arguments none (.call id ⟨target, p, values⟩)
  | compared {values : List Literal} {opNode valueNode : Tree} {op : Comparator} {value : Literal} :
    arguments.length = p.params.length → compileArguments p.params arguments = .ok values →
    p.returns.kindClass ≠ .boolean → opNode.comparator? = some op →
    (p.returns.kindClass = .enumerated → op.isEquality = true) →
    valueNode.literal? = some value → p.returns.contains value = true →
    CompiledCall id target p arguments (some (opNode, valueNode))
      (.compare id ⟨target, p, values⟩ op value)

theorem compileCall_eq_ok {id : NodeId} {r : Rule} {target : Nat} {p : Predicate}
    {arguments : List Tree} {comparison : Option (Tree × Tree)} {condition : Condition}
    (h : compileCall id r target p arguments comparison = .ok condition) :
    CompiledCall id target p arguments comparison condition := by
  unfold compileCall at h
  by_cases hlen : arguments.length = p.params.length
  · rw [if_neg (not_not_intro hlen)] at h
    obtain ⟨values, hvalues, h⟩ := Result.bind_eq_ok_iff.1 h
    cases comparison with
    | none =>
      cases hclass : p.returns.kindClass with
      | boolean =>
        simp only [hclass] at h
        rw [← Result.pure_eq_ok_iff.1 h]
        exact .bare hlen hvalues hclass
      | numeric => simp [hclass, throw, throwThe, MonadExceptOf.throw] at h
      | enumerated => simp [hclass, throw, throwThe, MonadExceptOf.throw] at h
    | some pair =>
      obtain ⟨opNode, valueNode⟩ := pair
      cases hclass : p.returns.kindClass with
      | boolean => simp [hclass, throw, throwThe, MonadExceptOf.throw] at h
      | _ =>
        -- numbers and enumerations differ in the operators that the check lets pass
        simp only [hclass] at h
        cases hop : opNode.comparator? with
        | none => simp [hop, throw, throwThe, MonadExceptOf.throw] at h
        | some op =>
          simp only [hop] at h
          split at h
          · simp [bind, Except.bind, throw, throwThe, MonadExceptOf.throw] at h
          · rename_i hallowed
            cases hvalue : valueNode.literal? with
            | none => simp [hvalue, throw, throwThe, MonadExceptOf.throw] at h
            | some value =>
              simp only [hvalue] at h
              obtain ⟨_, hlegal, h⟩ := Result.bind_eq_ok_iff.1 h
              rw [← Result.pure_eq_ok_iff.1 h]
              refine .compared hlen hvalues (by rw [hclass]; decide) hop ?_ hvalue
                (checkLegal_eq_ok_iff.1 hlegal)
              intro henumerated
              simp_all
  · simp [hlen, bind, Except.bind, throw, throwThe, MonadExceptOf.throw] at h

/-- What a call has to be in order to compile. -/
theorem CompiledCall.compileCall_eq {id : NodeId} {target : Nat} {p : Predicate}
    {arguments : List Tree} {comparison : Option (Tree × Tree)} {condition : Condition}
    (h : CompiledCall id target p arguments comparison condition) (r : Rule) :
    compileCall id r target p arguments comparison = .ok condition := by
  cases h with
  | bare hlen hvalues hclass =>
    simp [compileCall, hlen, hvalues, hclass, bind, Except.bind, pure, Except.pure]
  | compared hlen hvalues hclass hop hequality hvalue hlegal =>
    have hchecked := checkLegal_eq_ok_iff.2 hlegal
    cases hcases : p.returns.kindClass with
    | boolean => exact absurd hcases hclass
    | numeric =>
      simp [compileCall, hlen, hvalues, hcases, hop, hvalue, hchecked, bind, Except.bind, pure,
        Except.pure]
    | enumerated =>
      simp [compileCall, hlen, hvalues, hcases, hop, hequality hcases, hvalue, hchecked, bind,
        Except.bind, pure, Except.pure]

/-! ### Trees -/

theorem CompiledCall.wellTyped {id : NodeId} {target : Nat} {p : Predicate} {arguments : List Tree}
    {comparison : Option (Tree × Tree)} {condition : Condition}
    (h : CompiledCall id target p arguments comparison condition) (hp : ps[target]? = some p) :
    condition.WellTyped ps := by
  cases h with
  | bare hlen hvalues hclass => exact ⟨⟨hp, (compileArguments_eq_ok hlen hvalues).legal⟩, hclass⟩
  | compared hlen hvalues hclass hop hequality hvalue hlegal =>
    exact ⟨⟨hp, (compileArguments_eq_ok hlen hvalues).legal⟩, hclass, hequality, hlegal⟩

theorem Tree.compileCondition_wellTyped {t : Tree} {condition : Condition}
    (h : t.compileCondition ps = .ok condition) : condition.WellTyped ps := by
  fun_induction Tree.compileCondition ps t generalizing condition with
  | case1 => exact absurd h (by simp)
  | case2 id t ih | case3 id t ih | case4 id t ih => exact ih h
  | case5 id a b iha ihb | case6 id a b iha ihb =>
    obtain ⟨x, hx, h⟩ := Result.bind_eq_ok_iff.1 h
    obtain ⟨y, hy, h⟩ := Result.bind_eq_ok_iff.1 h
    rw [← Result.pure_eq_ok_iff.1 h]
    exact ⟨iha hx, ihb hy⟩
  | case7 id a ih =>
    obtain ⟨x, hx, h⟩ := Result.bind_eq_ok_iff.1 h
    rw [← Result.pure_eq_ok_iff.1 h, Condition.WellTyped]
    exact ih hx
  | case8 => exact absurd h (by simp)
  | case9 id i nameId name below rest target p hfound arguments comparison hsplit =>
    exact (compileCall_eq_ok h).wellTyped (findPredicate_eq_some hfound).2.1
  | case10 => exact absurd h (by simp)

/-- A block that compiles has its number and a condition that compiles. -/
theorem Tree.compileBlock_eq_ok {range : Int} {u : Tree} {block : Block}
    (h : u.compileBlock ps range = .ok block) :
    ∃ condition body, u = node block.id (.rule .block) [condition, body] ∧
      condition.compileCondition ps = .ok block.condition := by
  unfold compileBlock at h
  split at h
  · rename_i id condition body
    obtain ⟨c, hc, h⟩ := Result.bind_eq_ok_iff.1 h
    obtain ⟨delta, _, h⟩ := Result.bind_eq_ok_iff.1 h
    rw [← Result.pure_eq_ok_iff.1 h]
    exact ⟨condition, body, rfl, hc⟩
  · cases h

theorem Tree.compileBlock_wellTyped {range : Int} {t : Tree} {block : Block}
    (h : t.compileBlock ps range = .ok block) : block.WellTyped ps range := by
  unfold Tree.compileBlock at h
  split at h
  · obtain ⟨condition, hcondition, h⟩ := Result.bind_eq_ok_iff.1 h
    obtain ⟨delta, hdelta, h⟩ := Result.bind_eq_ok_iff.1 h
    rw [← Result.pure_eq_ok_iff.1 h]
    obtain ⟨_, _, hlo, hhi⟩ := Tree.compileDelta_eq_ok_iff.1 hdelta
    exact ⟨Tree.compileCondition_wellTyped hcondition, hlo, hhi⟩
  · exact absurd h (by simp)

/-- **The compiler keeps its promises.**  Every block of a tree that compiles is well typed. -/
theorem Tree.compile_wellTyped {range : Int} {t : Tree} {blocks : List Block}
    (h : t.compile ps range = .ok blocks) : ∀ block ∈ blocks, block.WellTyped ps range := by
  intro block hblock
  unfold Tree.compile at h
  split at h
  · obtain ⟨u, _, hu⟩ := Result.exists_of_mapM_eq_ok h hblock
    exact Tree.compileBlock_wellTyped hu
  · obtain ⟨block', hblock', h⟩ := Result.bind_eq_ok_iff.1 h
    rw [← Result.pure_eq_ok_iff.1 h, List.mem_singleton] at hblock
    exact hblock ▸ Tree.compileBlock_wellTyped hblock'
  · exact absurd h (by simp)
  · exact absurd h (by simp)

end ScoreScript
