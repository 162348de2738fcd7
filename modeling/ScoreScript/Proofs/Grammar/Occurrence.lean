import ScoreScript.Proofs.Grammar.Scripts

/-!
# The rules of scripts

Which rules a script may contain can be read off the predicates and the configuration, without any
search: the forms of conditions that have a weight, the calls of all predicates, and what these calls
need for their literals and comparisons.

* `conditionForms_eq` — the forms of conditions are those that have a weight and are allowed;
* `Rule.Occurs`, `Rule.mentioned` — the rules of scripts, and what each of them mentions;
* `Grammar.mentions_assembled`, `Grammar.alternatives_assembled_ne_nil` — the table of rules;
* `Grammar.assembled_reaches_iff` — the rules of scripts are those that are reached from the start.
-/

namespace ScoreScript

/-! ### Positive numbers -/

theorem unpacked_compare_swap (x y : Float.Model.UnpackedFloat) :
    (x.compare y).map Ordering.swap = y.compare x := by
  cases x with
  | notANumber => cases y <;> rfl
  | infinity s =>
    cases y with
    | infinity s' => cases s <;> cases s' <;> rfl
    | _ => cases s <;> rfl
  | zero s =>
    cases y with
    | notANumber | zero => rfl
    | _ s' => cases s' <;> rfl
  | finite s m e =>
    cases y with
    | notANumber => cases s <;> rfl
    | finite s' m' e' =>
      have hthen : ((compare e e').then (compare m m')).swap =
          (compare e' e).then (compare m' m) := by
        rw [Ordering.swap_then, ← Std.OrientedOrd.eq_swap, ← Std.OrientedOrd.eq_swap]
      cases s with
      | negative =>
        cases s' with
        | negative => exact congrArg (fun order => some order.swap) hthen
        | positive => rfl
      | positive =>
        cases s' with
        | negative => rfl
        | positive => exact congrArg some hthen
    | _ s' => cases s <;> cases s' <;> rfl

/-- Numbers of which one is less than the other are not equal. -/
theorem float_bne_of_lt {x y : Float} (h : x < y) : (y != x) = true := by
  have hlt : x.toModel.unpack.compare y.toModel.unpack = some .lt :=
    beq_iff_eq.1 (of_decide_eq_true h)
  have hswap := unpacked_compare_swap x.toModel.unpack y.toModel.unpack
  rw [hlt] at hswap
  show (!(y.toModel.unpack.compare x.toModel.unpack == some .eq)) = true
  rw [← hswap]
  rfl

/-! ### The forms of conditions -/

/-- The rules for the forms of conditions with their weights. -/
def Config.forms (c : Config) : List (Float × Rule) :=
  [(c.weights.atom, .atom), (c.weights.conjunction, .conjunction),
    (c.weights.disjunction, .disjunction), (c.weights.negation, .negation)]

/-- The forms that may occur: those whose weight is not zero, disjunctions only if they are allowed. -/
def Config.countedForms (c : Config) : List (Float × Rule) :=
  c.forms.filter fun form => form.1 != 0.0 && (form.2 != .disjunction || c.allowDisjunction)

/-- The symbols of the forms that may occur, with their weights. -/
def Config.countedShapes (c : Config) : List (Float × List Symbol) :=
  c.countedForms.map fun form => (form.1, [.rule form.2])

/-- A disjunction that is not allowed has weight zero. -/
theorem conditionForms_eq (c : Config) : conditionForms c = c.countedShapes := by
  have hzero : ((0.0 : Float) != 0.0) = false := by decide
  simp only [conditionForms, Config.countedShapes, Config.countedForms, Config.forms,
    List.filter_cons, List.filter_nil]
  generalize (c.weights.atom != 0.0) = atom
  generalize (c.weights.conjunction != 0.0) = conjunction
  generalize (c.weights.negation != 0.0) = negation
  cases c.allowDisjunction with
  | false =>
    rw [if_neg Bool.false_ne_true, hzero]
    cases atom <;> cases conjunction <;> cases negation <;> simp
  | true =>
    rw [if_pos rfl]
    generalize (c.weights.disjunction != 0.0) = disjunction
    cases atom <;> cases conjunction <;> cases disjunction <;> cases negation <;> rfl

/-! ### The rules of scripts -/

/-- The rules that scripts over these predicates may contain. -/
def Rule.Occurs (ps : List Predicate) (c : Config) : Rule → Prop
  | .start | .block | .body | .adjustment | .amount | .condition | .atom | .call => True
  | .predicate i => i < ps.length
  | .conjunction => (c.weights.conjunction != 0.0) = true
  | .disjunction => c.allowDisjunction = true ∧ (c.weights.disjunction != 0.0) = true
  | .negation => (c.weights.negation != 0.0) = true
  | .numericComparator => ∃ p ∈ ps, p.returns.kindClass = .numeric
  | .enumComparator => ∃ p ∈ ps, p.returns.kindClass = .enumerated
  | .literal kind => ∃ p ∈ ps, .choice kind ∈ p.params ∨
      (p.returns = kind ∧ kind.kindClass ≠ .boolean)

/-- The rules that a call mentions. -/
def Predicate.rules (p : Predicate) : List Rule :=
  (callSymbols p).filterMap Symbol.rule?

/-- The rules that a rule mentions in scripts. -/
def Rule.mentioned (ps : List Predicate) (c : Config) : Rule → List Rule
  | .start => [.block]
  | .block => [.condition, .body]
  | .body => [.adjustment]
  | .adjustment => [.amount]
  | .condition => c.countedForms.map (·.2)
  | .conjunction | .disjunction => [.condition, .condition]
  | .negation => [.condition]
  | .atom => [.call]
  | .call => (List.range ps.length).map .predicate
  | .predicate i => (ps[i]?.map Predicate.rules).getD []
  | .amount | .numericComparator | .enumComparator | .literal _ => []

theorem mem_literalKinds {p : Predicate} {kind : Kind} :
    kind ∈ literalKinds p ↔
      .choice kind ∈ p.params ∨ (p.returns = kind ∧ kind.kindClass ≠ .boolean) := by
  have hchoices : kind ∈ p.choices ↔ .choice kind ∈ p.params := by
    rw [Predicate.choices, List.mem_filterMap]
    constructor
    · rintro ⟨param, hparam, hkind⟩
      cases param with
      | choice k => exact Option.some.inj hkind ▸ hparam
      | state | action => cases hkind
    · exact fun h => ⟨_, h, rfl⟩
  rw [literalKinds, List.mem_append, hchoices]
  by_cases hboolean : p.returns.kindClass = .boolean
  · have hnot : ¬ (p.returns = kind ∧ kind.kindClass ≠ .boolean) := by
      rintro ⟨rfl, hnot⟩
      exact hnot hboolean
    rw [if_pos hboolean, or_iff_left hnot, or_iff_left List.not_mem_nil]
  · have hreturns : (p.returns = kind ∧ kind.kindClass ≠ .boolean) ↔ kind = p.returns := by
      constructor
      · exact fun h => h.1.symm
      · rintro rfl
        exact ⟨rfl, hboolean⟩
    rw [if_neg hboolean, List.mem_singleton, hreturns]

theorem filterMap_argumentSymbol (params : List Param) :
    (params.map argumentSymbol).filterMap Symbol.rule? =
      (params.filterMap Param.choice?).map .literal := by
  rw [List.filterMap_map, List.map_filterMap]
  congr 1
  funext param
  cases param <;> rfl

/-- A call mentions the rules of its literals and the rule of its operator. -/
theorem Predicate.mem_rules {p : Predicate} {r : Rule} :
    r ∈ p.rules ↔ (∃ kind ∈ literalKinds p, r = .literal kind) ∨
      Rule.comparator? p.returns.kindClass = some r := by
  have hrules : p.rules = (p.choices.map .literal) ++
      (comparisonSymbols p.returns).filterMap Symbol.rule? := by
    rw [Predicate.rules, callSymbols, List.filterMap_cons_none rfl, List.filterMap_append,
      filterMap_argumentSymbol]
    rfl
  rw [hrules, List.mem_append, List.mem_map, literalKinds, comparisonSymbols]
  cases hclass : p.returns.kindClass with
  | boolean => simp [Rule.comparator?, eq_comm]
  | numeric | enumerated =>
    simp only [Rule.comparator?, List.filterMap_cons, Symbol.rule?, List.filterMap_nil]
    grind

theorem Config.mem_countedForms {c : Config} {weight : Float} {r : Rule} :
    (weight, r) ∈ c.countedForms ↔ (weight, r) ∈ c.forms ∧ (weight != 0.0) = true ∧
      (r = .disjunction → c.allowDisjunction = true) := by
  have hallowed : (r != .disjunction || c.allowDisjunction) = true ↔
      (r = .disjunction → c.allowDisjunction = true) := by
    by_cases hr : r = .disjunction <;> simp [hr]
  rw [Config.countedForms, List.mem_filter, Bool.and_eq_true, hallowed]

/-- What the rules of scripts mention are rules of scripts. -/
theorem Rule.Occurs.of_mentioned {ps : List Predicate} {c : Config} {r r' : Rule}
    (h : r' ∈ r.mentioned ps c) : r'.Occurs ps c := by
  cases r with
  | condition =>
    obtain ⟨⟨weight, r''⟩, hform, rfl⟩ := List.mem_map.1 h
    obtain ⟨hform, hweight, hallowed⟩ := Config.mem_countedForms.1 hform
    simp only [Config.forms, List.mem_cons, Prod.mk.injEq, List.not_mem_nil, or_false] at hform
    rcases hform with ⟨rfl, rfl⟩ | ⟨rfl, rfl⟩ | ⟨rfl, rfl⟩ | ⟨rfl, rfl⟩
    · trivial
    · exact hweight
    · exact ⟨hallowed rfl, hweight⟩
    · exact hweight
  | call =>
    obtain ⟨i, hi, rfl⟩ := List.mem_map.1 h
    exact List.mem_range.1 hi
  | predicate i =>
    cases hp : ps[i]? with
    | none =>
      rw [mentioned, hp] at h
      cases h
    | some p =>
      rw [mentioned, hp] at h
      have hmem : p ∈ ps := List.mem_of_getElem? hp
      rcases Predicate.mem_rules.1 h with ⟨kind, hkind, rfl⟩ | hcomparator
      · exact ⟨p, hmem, mem_literalKinds.1 hkind⟩
      · cases hclass : p.returns.kindClass with
        | boolean =>
          rw [hclass] at hcomparator
          cases hcomparator
        | numeric =>
          rw [hclass] at hcomparator
          cases hcomparator
          exact ⟨p, hmem, hclass⟩
        | enumerated =>
          rw [hclass] at hcomparator
          cases hcomparator
          exact ⟨p, hmem, hclass⟩
  | block =>
    rcases List.mem_pair.1 h with rfl | rfl <;> trivial
  | conjunction | disjunction =>
    rcases List.mem_pair.1 h with rfl | rfl <;> trivial
  | amount | numericComparator | enumComparator | literal => cases h
  | start | body | adjustment | negation | atom =>
    obtain rfl := List.mem_singleton.1 h
    trivial

namespace Grammar

/-! ### The table -/

theorem lookup_append (r : Rule) (table table' : RuleTable) :
    lookup r (table ++ table') = (lookup r table).or (lookup r table') := by
  induction table with
  | nil => rfl
  | cons entry rest ih =>
    obtain ⟨key, alternatives⟩ := entry
    by_cases hkey : key = r
    · simp [lookup, hkey]
    · simp [lookup, hkey, ih]

theorem lookup_eq_none {r : Rule} {table : RuleTable} (h : ∀ entry ∈ table, entry.1 ≠ r) :
    lookup r table = none := by
  induction table with
  | nil => rfl
  | cons entry rest ih =>
    rw [lookup, if_neg (h entry List.mem_cons_self)]
    exact ih fun entry' hentry => h entry' (List.mem_cons_of_mem _ hentry)

theorem lookup_predicateRules (ps : List Predicate) (index i : Nat) :
    lookup (.predicate (index + i)) (predicateRules index ps) =
      ps[i]?.map fun p => [.sequence (callSymbols p)] := by
  induction ps generalizing index i with
  | nil => rfl
  | cons p rest ih =>
    cases i with
    | zero => simp [predicateRules, lookup]
    | succ i =>
      have hkey : Rule.predicate index ≠ .predicate (index + (i + 1)) := by
        intro h
        injection h with h
        omega
      rw [predicateRules, lookup, if_neg hkey, List.getElem?_cons_succ, ← ih,
        show index + (i + 1) = index + 1 + i by omega]

theorem lookup_literals (alternatives : Kind → List Production) (kinds : List Kind) (kind : Kind) :
    lookup (.literal kind) (kinds.map fun k => (.literal k, alternatives k)) =
      if kind ∈ kinds then some (alternatives kind) else none := by
  induction kinds with
  | nil => rfl
  | cons k rest ih =>
    by_cases hk : k = kind
    · simp [lookup, hk]
    · have hkey : Rule.literal k ≠ .literal kind := fun h => hk (Rule.literal.inj h)
      simp [lookup, hkey, ih, Ne.symm hk]

/-- The grammar of predicates with samplers of blocks and conditions, before it is validated. -/
def assembled (ps : List Predicate) (c : Config) (blocks : Diminishing) (forms : Weighted) : Grammar :=
  ⟨structuralRules c blocks forms ++ predicateTable c ps, ps, c.scoreRange⟩

section Assembled

variable {ps : List Predicate} {c : Config} {blocks : Diminishing} {forms : Weighted}

theorem alternatives_predicate (i : Nat) :
    (assembled ps c blocks forms).alternatives (.predicate i) =
      (ps[i]?.map fun p => [.sequence (callSymbols p)]).getD [] := by
  have hliterals : lookup (.predicate i) (literalRules ps) = none := by
    apply lookup_eq_none
    intro entry hentry
    obtain ⟨kind, _, rfl⟩ := List.mem_map.1 hentry
    exact fun h => nomatch h
  have hrules := lookup_predicateRules ps 0 i
  rw [Nat.zero_add] at hrules
  show (lookup (.predicate i) (literalRules ps ++ predicateRules 0 ps)).getD [] = _
  rw [lookup_append, hliterals, hrules, Option.none_or]

theorem alternatives_literal (kind : Kind) :
    (assembled ps c blocks forms).alternatives (.literal kind) =
      if kind ∈ ps.flatMap literalKinds then
        kind.legal.map fun value => .one (.terminal (.value value))
      else [] := by
  have hrules : lookup (.literal kind) (predicateRules 0 ps) = none := by
    apply lookup_eq_none
    intro entry hentry
    obtain ⟨i, p, _, rfl⟩ := mem_predicateRules hentry
    exact fun h => nomatch h
  show (lookup (.literal kind) (literalRules ps ++ predicateRules 0 ps)).getD [] = _
  rw [lookup_append, hrules, Option.or_none, literalRules,
    lookup_literals fun k => k.legal.map fun value => .one (.terminal (.value value))]
  simp only [List.mem_filter, Kind.mem_all, true_and, decide_eq_true_eq]
  split <;> rfl

theorem flatMap_rules_terminals {α : Type} (xs : List α) (f : α → Terminal) :
    (xs.map fun x => Production.one (.terminal (f x))).flatMap Production.rules = [] := by
  rw [List.flatMap_map]
  exact List.flatMap_eq_nil_iff.2 fun _ _ => rfl

/-- What a rule of the assembled grammar mentions. -/
theorem mentions_assembled (hblocks : blocks.symbol = .rule .block)
    (hforms : forms.choices = conditionForms c) (r : Rule) :
    (assembled ps c blocks forms).mentions r = r.mentioned ps c := by
  cases r with
  | start =>
    show ([blocks.symbol].filterMap Symbol.rule?) ++ [] = _
    rw [hblocks]
    rfl
  | condition =>
    show (forms.choices.flatMap (·.2)).filterMap Symbol.rule? ++ [] = c.countedForms.map (·.2)
    rw [hforms, conditionForms_eq, Config.countedShapes, List.append_nil, List.flatMap_map,
      List.filterMap_flatMap, List.map_eq_flatMap]
    rfl
  | call =>
    show ((List.range ps.length).map fun i => .one (.rule (.predicate i))).flatMap Production.rules =
      (List.range ps.length).map .predicate
    rw [List.flatMap_map, List.map_eq_flatMap]
    rfl
  | amount => exact flatMap_rules_terminals _ _
  | numericComparator => exact flatMap_rules_terminals _ _
  | enumComparator => exact flatMap_rules_terminals _ _
  | literal kind =>
    rw [mentions, alternatives_literal]
    split
    · exact flatMap_rules_terminals _ _
    · rfl
  | predicate i =>
    rw [mentions, alternatives_predicate, Rule.mentioned]
    cases ps[i]? with
    | none => rfl
    | some p => exact List.append_nil _
  | _ => rfl

/-- The rules that occur have alternatives, calls only if there are predicates. -/
theorem alternatives_assembled_ne_nil (hrange : 1 ≤ c.scoreRange) {r : Rule} (hr : r.Occurs ps c)
    (hcall : r = .call → ps ≠ []) : (assembled ps c blocks forms).alternatives r ≠ [] := by
  cases r with
  | amount =>
    have hone : (1 : Int) ∈ adjustments c.scoreRange :=
      mem_adjustments.2 ⟨by omega, hrange, by decide⟩
    exact List.ne_nil_of_mem (List.mem_map_of_mem hone)
  | call =>
    show (List.range ps.length).map _ ≠ []
    simpa using hcall rfl
  | numericComparator =>
    show comparatorAlternatives c.comparators .numeric ≠ []
    cases c.comparators <;> exact List.cons_ne_nil _ _
  | enumComparator =>
    show comparatorAlternatives c.comparators .enumerated ≠ []
    cases c.comparators <;> exact List.cons_ne_nil _ _
  | literal kind =>
    obtain ⟨p, hp, hkind⟩ := hr
    rw [alternatives_literal, if_pos (List.mem_flatMap.2 ⟨p, hp, mem_literalKinds.2 hkind⟩)]
    cases kind <;> exact List.cons_ne_nil _ _
  | predicate i =>
    rw [alternatives_predicate, List.getElem?_eq_getElem hr]
    exact List.cons_ne_nil _ _
  | _ => exact List.cons_ne_nil _ _

/-- The rules of scripts are those that are reached from the start. -/
theorem assembled_reaches_iff (hblocks : blocks.symbol = .rule .block)
    (hforms : forms.choices = conditionForms c) (hatom : 0.0 < c.weights.atom) {r : Rule} :
    (assembled ps c blocks forms).Reaches .start r ↔ r.Occurs ps c := by
  constructor
  · intro h
    induction h with
    | root => trivial
    | mention _ hmention _ =>
      rw [mentions_assembled hblocks hforms] at hmention
      exact .of_mentioned hmention
  · have step : ∀ (r r' : Rule), (assembled ps c blocks forms).Reaches .start r →
        r' ∈ r.mentioned ps c → (assembled ps c blocks forms).Reaches .start r' := by
      intro r r' hr hmention
      rw [← mentions_assembled hblocks hforms] at hmention
      exact .mention hr hmention
    have hblock := step .start .block .root (by simp [Rule.mentioned])
    have hbody := step .block .body hblock (by simp [Rule.mentioned])
    have hadjustment := step .body .adjustment hbody (by simp [Rule.mentioned])
    have hcondition := step .block .condition hblock (by simp [Rule.mentioned])
    have hform : ∀ (weight : Float) (r : Rule), (weight, r) ∈ c.forms → (weight != 0.0) = true →
        (r = .disjunction → c.allowDisjunction = true) →
        (assembled ps c blocks forms).Reaches .start r := by
      intro weight r hform hweight hallowed
      have hcounted := Config.mem_countedForms.2 ⟨hform, hweight, hallowed⟩
      exact step .condition r hcondition (List.mem_map_of_mem hcounted)
    have hatom := hform _ .atom (by simp [Config.forms]) (float_bne_of_lt hatom) (by simp)
    have hcall := step .atom .call hatom (by simp [Rule.mentioned])
    have hpredicate : ∀ i < ps.length,
        (assembled ps c blocks forms).Reaches .start (.predicate i) := by
      intro i hi
      exact step .call _ hcall (List.mem_map_of_mem (List.mem_range.2 hi))
    have hrules : ∀ p ∈ ps, ∀ r ∈ p.rules, (assembled ps c blocks forms).Reaches .start r := by
      intro p hp r hr
      obtain ⟨i, hi, rfl⟩ := List.mem_iff_getElem.1 hp
      refine step (.predicate i) r (hpredicate i hi) ?_
      rw [Rule.mentioned, List.getElem?_eq_getElem hi]
      exact hr
    intro hr
    cases r with
    | start => exact .root
    | block => exact hblock
    | body => exact hbody
    | adjustment => exact hadjustment
    | amount => exact step .adjustment .amount hadjustment (by simp [Rule.mentioned])
    | condition => exact hcondition
    | atom => exact hatom
    | call => exact hcall
    | conjunction => exact hform _ _ (by simp [Config.forms]) hr (by simp)
    | disjunction => exact hform _ _ (by simp [Config.forms]) hr.2 fun _ => hr.1
    | negation => exact hform _ _ (by simp [Config.forms]) hr (by simp)
    | predicate i => exact hpredicate i hr
    | numericComparator =>
      obtain ⟨p, hp, hclass⟩ := hr
      exact hrules p hp _ (Predicate.mem_rules.2 (Or.inr (hclass ▸ rfl)))
    | enumComparator =>
      obtain ⟨p, hp, hclass⟩ := hr
      exact hrules p hp _ (Predicate.mem_rules.2 (Or.inr (hclass ▸ rfl)))
    | literal kind =>
      obtain ⟨p, hp, hkind⟩ := hr
      exact hrules p hp _ (Predicate.mem_rules.2 (Or.inl ⟨kind, mem_literalKinds.2 hkind, rfl⟩))

end Assembled

end Grammar

end ScoreScript
