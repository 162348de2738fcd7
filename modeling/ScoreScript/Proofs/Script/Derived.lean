import ScoreScript.Proofs.Grammar.Derivation
import ScoreScript.Proofs.Grammar.Scripts
import ScoreScript.Proofs.Script.Texts
import ScoreScript.Proofs.Script.Typing
import ScoreScript.Proofs.Tree.Parts
import ScoreScript.Script.Basic

/-!
# Derivation trees are scripts

Whatever is derived from the grammar of a list of predicates has a text and compiles.  Each rule
comes with what the compiler asks of a tree under it, and this holds of a tree as soon as it holds
of the children.

* `Rule.Compiles` — what the compiler asks of a tree under a rule;
* `exists_compileCall` — calls in the shape of their declaration compile;
* `Rule.Expands.compiles`, `Rule.Expands.renders` — one level of a tree, rule by rule;
* `Grammar.Built.compiles` — every derivation tree is as the compiler asks;
* `Grammar.Built.renders` — every derivation tree has a text.
-/

namespace ScoreScript

/-- What the compiler asks of a tree under a rule. -/
def Rule.Compiles (ps : List Predicate) (range : Int) : Rule → Tree → Prop
  | .start, t => ∃ blocks, t.compile ps range = .ok blocks
  | .block, t => ∃ block, t.compileBlock ps range = .ok block
  | .body, t => ∃ delta, t.compileDelta range = .ok delta
  | .adjustment, t => ∃ delta, t.compileDelta range = .ok delta
  | .amount, t => ∃ delta, t.compileDelta range = .ok delta
  | .numericComparator, t => ∃ op, t.comparator? = some op
  | .enumComparator, t => ∃ op, t.comparator? = some op ∧ op.isEquality = true
  | .literal kind, t => ∃ value, t.literal? = some value ∧ kind.contains value = true
  | .condition, t => ∃ condition, t.compileCondition ps = .ok condition
  | .conjunction, t => ∃ condition, t.compileCondition ps = .ok condition
  | .disjunction, t => ∃ condition, t.compileCondition ps = .ok condition
  | .negation, t => ∃ condition, t.compileCondition ps = .ok condition
  | .atom, t => ∃ condition, t.compileCondition ps = .ok condition
  | .call, t => ∃ condition, t.compileCondition ps = .ok condition
  | .predicate _, t => ∃ condition, t.compileCondition ps = .ok condition

/-! ### Calls -/

theorem findPredicate_of_nodup {ps : List Predicate} {i : Nat} {p : Predicate}
    (hnodup : (ps.map Predicate.name).Nodup) (hp : ps[i]? = some p) (index : Nat) :
    findPredicate p.name index ps = some (index + i, p) := by
  induction ps generalizing index i with
  | nil => simp at hp
  | cons q rest ih =>
    rw [List.map_cons, List.nodup_cons] at hnodup
    cases i with
    | zero =>
      rw [List.getElem?_cons_zero, Option.some.injEq] at hp
      rw [findPredicate, if_pos (congrArg _ hp), hp, Nat.add_zero]
    | succ i =>
      rw [List.getElem?_cons_succ] at hp
      have hne : q.name ≠ p.name := by
        intro heq
        exact hnodup.1 (heq ▸ List.mem_map_of_mem (List.mem_of_getElem? hp))
      rw [findPredicate, if_neg hne, ih hnodup.2 hp, show index + 1 + i = index + (i + 1) by omega]

theorem isComparator_of_label {t : Tree} {param : Param} (h : t.label = argumentSymbol param) :
    t.isComparator = false := by
  rw [Tree.isComparator, h]
  cases param <;> rfl

/-- Trees that stand for the parameters, with legal literals for the choices, are arguments. -/
theorem compileArguments_of_labels {params : List Param} {ts : List Tree}
    (hlabels : ts.map Tree.label = params.map argumentSymbol)
    (hliterals : ∀ t ∈ ts, ∀ kind, t.label = .rule (.literal kind) →
      ∃ value, t.literal? = some value ∧ kind.contains value = true) :
    ∃ values, compileArguments params ts = .ok values := by
  induction params generalizing ts with
  | nil => exact ⟨[], by rw [compileArguments] <;> simp⟩
  | cons param params ih =>
    rw [List.map_cons] at hlabels
    obtain ⟨t, rest, rfl, ht, hrest⟩ := List.map_eq_cons_iff.1 hlabels
    obtain ⟨values, hvalues⟩ := ih hrest fun u hu => hliterals u (List.mem_cons_of_mem _ hu)
    cases param with
    | state => exact ⟨values, by rw [compileArguments, if_pos (Tree.terminal?_of_label ht), hvalues]⟩
    | action => exact ⟨values, by rw [compileArguments, if_pos (Tree.terminal?_of_label ht), hvalues]⟩
    | choice kind =>
      obtain ⟨value, hvalue, hlegal⟩ := hliterals t List.mem_cons_self kind ht
      refine ⟨value :: values, ?_⟩
      rw [compileArguments, hvalue]
      show (checkLegal kind value >>= fun _ => _) = _
      rw [checkLegal_eq_ok_iff.2 hlegal, hvalues]
      rfl

theorem length_of_labels {ts : List Tree} {params : List Param}
    (hlabels : ts.map Tree.label = params.map argumentSymbol) : ts.length = params.length := by
  rw [← List.length_map Tree.label, hlabels, List.length_map]

theorem isComparator_of_labels {ts : List Tree} {params : List Param}
    (hlabels : ts.map Tree.label = params.map argumentSymbol) :
    ∀ t ∈ ts, t.isComparator = false := by
  intro t ht
  have hlabel := List.mem_map_of_mem (f := Tree.label) ht
  rw [hlabels] at hlabel
  obtain ⟨param, _, hparam⟩ := List.mem_map.1 hlabel
  exact isComparator_of_label hparam.symm

theorem exists_compileCall {ps : List Predicate} {range : Int} {p : Predicate} {ts : List Tree}
    (hlabels : ts.map Tree.label = p.params.map argumentSymbol ++ comparisonSymbols p.returns)
    (hts : ∀ t ∈ ts, ∀ r, t.label = .rule r → r.Compiles ps range t) (id : NodeId) (r : Rule)
    (target : Nat) :
    ∃ condition, compileCall id r target p (Tree.splitComparison ts).1
      (Tree.splitComparison ts).2 = .ok condition := by
  obtain ⟨arguments, comparison, rfl, harguments, hcomparison⟩ := List.map_eq_append_iff.1 hlabels
  have hlength := length_of_labels harguments
  obtain ⟨values, hvalues⟩ := compileArguments_of_labels harguments
    fun t ht kind hlabel => hts t (List.mem_append_left _ ht) _ hlabel
  rw [comparisonSymbols] at hcomparison
  cases hclass : p.returns.kindClass with
  | boolean =>
    -- truth values are not compared
    rw [hclass] at hcomparison
    rw [Tree.map_label_eq_nil hcomparison, List.append_nil,
      Tree.splitComparison_eq_none (isComparator_of_labels harguments)]
    exact ⟨_, (CompiledCall.bare hlength hvalues hclass).compileCall_eq r⟩
  | numeric =>
    rw [hclass] at hcomparison
    obtain ⟨opNode, valueNode, rfl, hop, hvalue⟩ := Tree.map_label_eq_two hcomparison
    obtain ⟨op, hopText⟩ := hts opNode (by simp) _ hop
    obtain ⟨value, hliteral, hlegal⟩ := hts valueNode (by simp) _ hvalue
    rw [Tree.splitComparison_append (by rw [Tree.isComparator, hop])]
    have hcompared : CompiledCall id target p arguments (some (opNode, valueNode))
        (.compare id ⟨target, p, values⟩ op value) :=
      .compared hlength hvalues (by simp [hclass]) hopText (by simp [hclass]) hliteral hlegal
    exact ⟨_, hcompared.compileCall_eq r⟩
  | enumerated =>
    rw [hclass] at hcomparison
    obtain ⟨opNode, valueNode, rfl, hop, hvalue⟩ := Tree.map_label_eq_two hcomparison
    obtain ⟨op, hopText, hequality⟩ := hts opNode (by simp) _ hop
    obtain ⟨value, hliteral, hlegal⟩ := hts valueNode (by simp) _ hvalue
    rw [Tree.splitComparison_append (by rw [Tree.isComparator, hop])]
    have hcompared : CompiledCall id target p arguments (some (opNode, valueNode))
        (.compare id ⟨target, p, values⟩ op value) :=
      .compared hlength hvalues (by simp [hclass]) hopText (fun _ => hequality) hliteral hlegal
    exact ⟨_, hcompared.compileCall_eq r⟩

/-! ### Parts of scripts -/

section Parts

variable {ps : List Predicate} {range : Int} {id : NodeId}

theorem exists_compileDelta_of_literal? {i : Int} {t : Tree} (hrange : range ≤ maxScoreRange)
    (hi : i ∈ adjustments range) (ht : t.literal? = some (.int (Int64.ofInt i))) :
    ∃ delta, t.compileDelta range = .ok delta := by
  have hle : range ≤ 8 := hrange
  obtain ⟨hlo, hhi, hne⟩ := mem_adjustments.1 hi
  refine ⟨i, Tree.compileDelta_eq_ok_iff.2 ⟨?_, hne, hlo, hhi⟩⟩
  rw [Tree.integer?_of_literal? ht, Int64.toInt_ofInt_of_le (by omega) (by omega)]

theorem exists_compileDelta_only {r : Rule} {t : Tree}
    (h : ∃ delta, t.compileDelta range = .ok delta) :
    ∃ delta, (Tree.node id (.rule r) [t]).compileDelta range = .ok delta := by
  obtain ⟨delta, hdelta⟩ := h
  refine ⟨delta, Tree.compileDelta_eq_ok_iff.2 ?_⟩
  rw [Tree.integer?_only]
  exact Tree.compileDelta_eq_ok_iff.1 hdelta

/-- Rules that stand for the condition below them. -/
theorem exists_compileCondition_only {r : Rule} {t : Tree}
    (hr : r = .condition ∨ r = .atom ∨ r = .call)
    (h : ∃ condition, t.compileCondition ps = .ok condition) :
    ∃ condition, (Tree.node id (.rule r) [t]).compileCondition ps = .ok condition := by
  obtain ⟨condition, hcondition⟩ := h
  refine ⟨condition, ?_⟩
  rcases hr with rfl | rfl | rfl
  · rw [Tree.compileCondition, hcondition]
  · rw [Tree.compileCondition, hcondition]
  · rw [Tree.compileCondition, hcondition]

theorem exists_compileCondition_both {r : Rule} {a b : Tree}
    (hr : r = .conjunction ∨ r = .disjunction)
    (ha : ∃ condition, a.compileCondition ps = .ok condition)
    (hb : ∃ condition, b.compileCondition ps = .ok condition) :
    ∃ condition, (Tree.node id (.rule r) [a, b]).compileCondition ps = .ok condition := by
  obtain ⟨x, hx⟩ := ha
  obtain ⟨y, hy⟩ := hb
  rcases hr with rfl | rfl
  · exact ⟨.and id x y, by rw [Tree.compileCondition, hx, hy]; rfl⟩
  · exact ⟨.or id x y, by rw [Tree.compileCondition, hx, hy]; rfl⟩

theorem exists_compileCondition_negation {t : Tree}
    (h : ∃ condition, t.compileCondition ps = .ok condition) :
    ∃ condition, (Tree.node id (.rule .negation) [t]).compileCondition ps = .ok condition := by
  obtain ⟨x, hx⟩ := h
  exact ⟨.not id x, by rw [Tree.compileCondition, hx]; rfl⟩

theorem exists_compileCondition_predicate {p : Predicate} {i : Nat} {ts : List Tree}
    (hnodup : (ps.map Predicate.name).Nodup) (hp : ps[i]? = some p)
    (hlabels : ts.map Tree.label = callSymbols p)
    (hts : ∀ t ∈ ts, ∀ r, t.label = .rule r → r.Compiles ps range t) :
    ∃ condition, (Tree.node id (.rule (.predicate i)) ts).compileCondition ps = .ok condition := by
  rw [callSymbols] at hlabels
  obtain ⟨⟨nameId, label, below⟩, rest, rfl, hname, hrest⟩ := List.map_eq_cons_iff.1 hlabels
  subst hname
  have hfind := findPredicate_of_nodup hnodup hp 0
  rw [Nat.zero_add] at hfind
  rw [Tree.compileCondition, hfind]
  exact exists_compileCall hrest (fun t ht => hts t (List.mem_cons_of_mem _ ht)) id _ i

theorem exists_compileBlock_both {a b : Tree}
    (ha : ∃ condition, a.compileCondition ps = .ok condition)
    (hb : ∃ delta, b.compileDelta range = .ok delta) :
    ∃ block, (Tree.node id (.rule .block) [a, b]).compileBlock ps range = .ok block := by
  obtain ⟨condition, hcondition⟩ := ha
  obtain ⟨delta, hdelta⟩ := hb
  exact ⟨⟨id, condition, delta⟩, by rw [Tree.compileBlock, hcondition, hdelta]; rfl⟩

end Parts

/-! ### Every rule -/

namespace Rule

/-- One level: a tree is as the compiler asks if its children are, and their labels are a sequence
that may stand below the rule. -/
theorem Expands.compiles {ps : List Predicate} {c : Config} {r : Rule} {children : List Tree}
    (hnodup : (ps.map Predicate.name).Nodup) (hrange : c.scoreRange ≤ maxScoreRange)
    (hexpands : r.Expands ps c (children.map Tree.label))
    (hchildren : ∀ t ∈ children, ∀ r, t.label = .rule r → r.Compiles ps c.scoreRange t)
    (id : NodeId) : r.Compiles ps c.scoreRange (.node id (.rule r) children) := by
  cases r with
  | start =>
    obtain ⟨count, hlabels⟩ := hexpands
    exact Result.exists_mapM_eq_ok (Tree.forall_of_replicate hchildren hlabels)
  | block =>
    obtain ⟨a, b, rfl, ha, hb⟩ := Tree.exists_both hchildren hexpands
    exact exists_compileBlock_both ha hb
  | body =>
    obtain ⟨a, rfl, ha⟩ := Tree.exists_only hchildren hexpands
    exact exists_compileDelta_only ha
  | condition =>
    obtain ⟨form, hlabels, hform⟩ := hexpands.exists_form
    obtain ⟨a, rfl, ha⟩ := Tree.exists_only hchildren hlabels
    have hcondition : ∃ condition, a.compileCondition ps = .ok condition := by
      rcases hform with rfl | rfl | rfl | rfl <;> exact ha
    exact exists_compileCondition_only (.inl rfl) hcondition
  | conjunction =>
    obtain ⟨a, b, rfl, ha, hb⟩ := Tree.exists_both hchildren hexpands
    exact exists_compileCondition_both (.inl rfl) ha hb
  | disjunction =>
    obtain ⟨a, b, rfl, ha, hb⟩ := Tree.exists_both hchildren hexpands
    exact exists_compileCondition_both (.inr rfl) ha hb
  | negation =>
    obtain ⟨a, rfl, ha⟩ := Tree.exists_only hchildren hexpands
    exact exists_compileCondition_negation ha
  | atom =>
    obtain ⟨a, rfl, ha⟩ := Tree.exists_only hchildren hexpands
    exact exists_compileCondition_only (.inr (.inl rfl)) ha
  | adjustment =>
    obtain ⟨a, rfl, ha⟩ := Tree.exists_only hchildren hexpands
    exact exists_compileDelta_only ha
  | amount =>
    obtain ⟨i, hi, hlabels⟩ := hexpands
    obtain ⟨a, rfl, ha⟩ := Tree.map_label_eq_one hlabels
    have hliteral := exists_compileDelta_of_literal? hrange hi (Tree.literal?_of_label ha)
    exact exists_compileDelta_only hliteral
  | call =>
    obtain ⟨i, _, hlabels⟩ := hexpands
    obtain ⟨a, rfl, ha⟩ := Tree.exists_only hchildren hlabels
    exact exists_compileCondition_only (.inr (.inr rfl)) ha
  | numericComparator =>
    obtain ⟨op, _, hlabels⟩ := hexpands
    obtain ⟨a, rfl, ha⟩ := Tree.map_label_eq_one hlabels
    exact ⟨op, by rw [Tree.comparator?_only, Tree.comparator?_of_label ha]⟩
  | enumComparator =>
    obtain ⟨op, hop, hlabels⟩ := hexpands
    obtain ⟨a, rfl, ha⟩ := Tree.map_label_eq_one hlabels
    rw [ComparatorSet.operators_enumerated] at hop
    refine ⟨op, ?_, (List.mem_filter.1 hop).2⟩
    rw [Tree.comparator?_only, Tree.comparator?_of_label ha]
  | literal kind =>
    obtain ⟨value, hvalue, hlabels⟩ := hexpands
    obtain ⟨a, rfl, ha⟩ := Tree.map_label_eq_one hlabels
    refine ⟨value, ?_, (Kind.contains_iff_mem_legal kind value).2 hvalue⟩
    rw [Tree.literal?_only, Tree.literal?_of_label ha]
  | predicate i =>
    obtain ⟨p, hp, hlabels⟩ := hexpands
    exact exists_compileCondition_predicate hnodup hp hlabels hchildren

/-- One level: a tree has a text if its children have, provided that it is as the compiler asks. -/
theorem Expands.renders {ps : List Predicate} {c : Config} {r : Rule} {children : List Tree}
    {id : NodeId} {range : Int} (hexpands : r.Expands ps c (children.map Tree.label))
    (hcompiles : r.Compiles ps range (.node id (.rule r) children))
    (htexts : ∀ t ∈ children, ∃ text, t.render = .ok text) :
    ∃ text, (Tree.node id (.rule r) children).render = .ok text := by
  obtain ⟨texts, hall⟩ := Tree.exists_renderAll htexts
  cases r with
  | block =>
    obtain ⟨a, b, rfl, _, _⟩ := Tree.map_label_eq_two hexpands
    obtain ⟨x, hx⟩ := htexts a (by simp)
    obtain ⟨y, hy⟩ := htexts b (by simp)
    exact ⟨blockText x y, by rw [Tree.render, hx, hy]; rfl⟩
  | conjunction =>
    obtain ⟨a, b, rfl, _, _⟩ := Tree.map_label_eq_two hexpands
    obtain ⟨x, hx⟩ := htexts a (by simp)
    obtain ⟨y, hy⟩ := htexts b (by simp)
    exact ⟨"(" ++ x ++ " and " ++ y ++ ")", by rw [Tree.render, hx, hy]; rfl⟩
  | disjunction =>
    obtain ⟨a, b, rfl, _, _⟩ := Tree.map_label_eq_two hexpands
    obtain ⟨x, hx⟩ := htexts a (by simp)
    obtain ⟨y, hy⟩ := htexts b (by simp)
    exact ⟨"(" ++ x ++ " or " ++ y ++ ")", by rw [Tree.render, hx, hy]; rfl⟩
  | negation =>
    obtain ⟨a, rfl, _⟩ := Tree.map_label_eq_one hexpands
    obtain ⟨x, hx⟩ := htexts a (by simp)
    exact ⟨"(not " ++ x ++ ")", by rw [Tree.render, hx]; rfl⟩
  | adjustment =>
    obtain ⟨a, rfl, _⟩ := Tree.map_label_eq_one hexpands
    obtain ⟨delta, hdelta⟩ := hcompiles
    rw [Tree.compileDelta_eq_ok_iff, Tree.integer?_only] at hdelta
    exact ⟨adjustmentText delta, by rw [Tree.render, hdelta.1]⟩
  | predicate i =>
    obtain ⟨p, _, hlabels⟩ := hexpands
    rw [callSymbols] at hlabels
    obtain ⟨⟨nameId, label, below⟩, rest, rfl, hname, _⟩ := List.map_eq_cons_iff.1 hlabels
    subst hname
    obtain ⟨texts, hrest⟩ := Tree.exists_renderAll fun t ht => htexts t (List.mem_cons_of_mem _ ht)
    exact ⟨_, by rw [Tree.render, hrest]; rfl⟩
  | _ =>
    refine ⟨String.join texts, ?_⟩
    rw [Tree.render, hall] <;> simp [bind, Except.bind, pure, Except.pure]

end Rule

theorem Grammar.Built.compiles {ps : List Predicate} {c : Config} {g : Grammar}
    (h : Built ps c g) {t : Tree} (ht : g.Derives t) :
    ∀ r, t.label = .rule r → r.Compiles ps c.scoreRange t := by
  induction ht with
  | terminal id term =>
    intro r hr
    cases hr
  | rule id hp hyields _ ih =>
    intro r hr
    cases hr
    exact Rule.Expands.compiles h.nodup h.le_max (h.expands hp hyields) ih id

theorem Grammar.Built.renders {ps : List Predicate} {c : Config} {g : Grammar}
    (h : Built ps c g) {t : Tree} (ht : g.Derives t) : ∃ text, t.render = .ok text := by
  induction ht with
  | terminal id term => exact ⟨term.text, by rw [Tree.render]⟩
  | rule id hp hyields hchildren ih =>
    exact Rule.Expands.renders (h.expands hp hyields)
      (h.compiles (.rule id hp hyields hchildren) _ rfl) ih

end ScoreScript
