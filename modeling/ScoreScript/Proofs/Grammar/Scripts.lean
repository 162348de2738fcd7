import ScoreScript.Grammar.Build
import ScoreScript.Proofs.Grammar.Reachability
import ScoreScript.Proofs.Result

/-!
# The grammar of scripts

What the grammar of a list of predicates lets stand below each rule, and that nothing in it fails to
be drawn.

* `Rule.Expands`, `Rule.Expands.exists_form` — the sequences below a rule;
* `Grammar.Built`, `Grammar.build_eq_ok` — what a grammar that was built consists of;
* `Grammar.Built.expands` — its alternatives yield no other sequences;
* `Grammar.Built.not_barren` — each of them yields one.
-/

namespace ScoreScript

/-- The sequences of symbols below a rule, in scripts over a list of predicates. -/
def Rule.Expands (ps : List Predicate) (c : Config) : Rule → List Symbol → Prop
  | .start, symbols => ∃ count, symbols = List.replicate count (.rule .block)
  | .block, symbols => symbols = [.rule .condition, .rule .body]
  | .body, symbols => symbols = [.rule .adjustment]
  | .condition, symbols =>
    symbols = [.rule .atom] ∨ symbols = [.rule .conjunction] ∨
      (c.allowDisjunction = true ∧ symbols = [.rule .disjunction]) ∨ symbols = [.rule .negation]
  | .conjunction, symbols => symbols = [.rule .condition, .rule .condition]
  | .disjunction, symbols => symbols = [.rule .condition, .rule .condition]
  | .negation, symbols => symbols = [.rule .condition]
  | .atom, symbols => symbols = [.rule .call]
  | .adjustment, symbols => symbols = [.rule .amount]
  | .amount, symbols =>
    ∃ i, i ∈ adjustments c.scoreRange ∧ symbols = [.terminal (.value (.int (Int64.ofInt i)))]
  | .call, symbols => ∃ i, i < ps.length ∧ symbols = [.rule (.predicate i)]
  | .numericComparator, symbols =>
    ∃ op ∈ c.comparators.operators .numeric, symbols = [.terminal (.op op)]
  | .enumComparator, symbols =>
    ∃ op ∈ c.comparators.operators .enumerated, symbols = [.terminal (.op op)]
  | .literal kind, symbols => ∃ value ∈ kind.legal, symbols = [.terminal (.value value)]
  | .predicate i, symbols => ∃ p, ps[i]? = some p ∧ symbols = callSymbols p

/-- Whatever form a condition takes, it is a single child. -/
theorem Rule.Expands.exists_form {ps : List Predicate} {c : Config} {symbols : List Symbol}
    (h : Rule.condition.Expands ps c symbols) :
    ∃ form : Rule, symbols = [.rule form] ∧
      (form = .atom ∨ form = .conjunction ∨ form = .disjunction ∨ form = .negation) := by
  rcases h with h | h | ⟨_, h⟩ | h
  · exact ⟨.atom, h, .inl rfl⟩
  · exact ⟨.conjunction, h, .inr (.inl rfl)⟩
  · exact ⟨.disjunction, h, .inr (.inr (.inl rfl))⟩
  · exact ⟨.negation, h, .inr (.inr (.inr rfl))⟩

/-! ### The parts of the table -/

theorem mem_predicateRules {index : Nat} {ps : List Predicate} {entry : Rule × List Production}
    (h : entry ∈ predicateRules index ps) :
    ∃ i p, ps[i]? = some p ∧ entry = (.predicate (index + i), [.sequence (callSymbols p)]) := by
  induction ps generalizing index with
  | nil => simp [predicateRules] at h
  | cons p rest ih =>
    rw [predicateRules, List.mem_cons] at h
    rcases h with rfl | h
    · exact ⟨0, p, rfl, rfl⟩
    · obtain ⟨i, q, hq, rfl⟩ := ih h
      refine ⟨i + 1, q, by rw [List.getElem?_cons_succ]; exact hq, ?_⟩
      rw [show index + 1 + i = index + (i + 1) by omega]

theorem mem_conditionForms {ps : List Predicate} {c : Config} {symbols : List Symbol}
    (h : symbols ∈ (conditionForms c).map (·.2)) :
    Rule.Expands ps c .condition symbols := by
  obtain ⟨⟨weight, symbols'⟩, hform, rfl⟩ := List.mem_map.1 h
  obtain ⟨hform, hweight⟩ := List.mem_filter.1 hform
  simp only [List.mem_cons, Prod.mk.injEq, List.not_mem_nil, or_false] at hform
  rcases hform with ⟨_, rfl⟩ | ⟨_, rfl⟩ | ⟨rfl, rfl⟩ | ⟨_, rfl⟩
  · exact Or.inl rfl
  · exact Or.inr (Or.inl rfl)
  · -- without disjunctions their weight is zero, and they are left out
    refine Or.inr (Or.inr (Or.inl ⟨?_, rfl⟩))
    by_contra hnot
    rw [if_neg hnot] at hweight
    exact absurd hweight (by decide)
  · exact Or.inr (Or.inr (Or.inr rfl))

theorem structuralRules_expands {ps : List Predicate} {c : Config} {blocks : Diminishing}
    {forms : Weighted} {r : Rule} {as : List Production} {p : Production} {symbols : List Symbol}
    (hblocks : blocks.symbol = .rule .block) (hforms : forms.choices = conditionForms c)
    (hentry : (r, as) ∈ structuralRules c blocks forms) (hp : p ∈ as) (hyields : p.Yields symbols) :
    r.Expands ps c symbols := by
  simp only [structuralRules, List.mem_cons, Prod.mk.injEq, List.not_mem_nil, or_false] at hentry
  rcases hentry with ⟨rfl, rfl⟩ | ⟨rfl, rfl⟩ | ⟨rfl, rfl⟩ | ⟨rfl, rfl⟩ | ⟨rfl, rfl⟩ | ⟨rfl, rfl⟩ |
    ⟨rfl, rfl⟩ | ⟨rfl, rfl⟩ | ⟨rfl, rfl⟩ | ⟨rfl, rfl⟩
  case inl =>
    rw [List.mem_singleton.1 hp] at hyields
    obtain ⟨count, rfl⟩ := hyields
    exact ⟨count, by rw [hblocks]⟩
  case inr.inr.inr.inl =>
    rw [List.mem_singleton.1 hp] at hyields
    exact mem_conditionForms (hforms ▸ hyields)
  case inr.inr.inr.inr.inr.inr.inr.inr.inr =>
    obtain ⟨i, hi, rfl⟩ := List.mem_map.1 hp
    exact ⟨i, hi, hyields⟩
  all_goals
    rw [List.mem_singleton.1 hp] at hyields
    exact hyields

theorem predicateTable_expands {ps : List Predicate} {c : Config} {r : Rule} {as : List Production}
    {p : Production} {symbols : List Symbol} (hentry : (r, as) ∈ predicateTable c ps) (hp : p ∈ as)
    (hyields : p.Yields symbols) : r.Expands ps c symbols := by
  rw [predicateTable, List.mem_append, List.mem_append] at hentry
  rcases hentry with (hentry | hentry) | hentry
  · simp only [List.mem_cons, Prod.mk.injEq, List.not_mem_nil, or_false] at hentry
    rcases hentry with ⟨rfl, rfl⟩ | ⟨rfl, rfl⟩ | ⟨rfl, rfl⟩
    · obtain ⟨i, hi, rfl⟩ := List.mem_map.1 hp
      exact ⟨i, List.mem_range.1 hi, hyields⟩
    · obtain ⟨op, hop, rfl⟩ := List.mem_map.1 hp
      exact ⟨op, hop, hyields⟩
    · obtain ⟨op, hop, rfl⟩ := List.mem_map.1 hp
      exact ⟨op, hop, hyields⟩
  · obtain ⟨kind, _, hkind⟩ := List.mem_map.1 hentry
    obtain ⟨rfl, rfl⟩ := Prod.mk.inj hkind
    obtain ⟨value, hvalue, rfl⟩ := List.mem_map.1 hp
    exact ⟨value, hvalue, hyields⟩
  · obtain ⟨i, q, hq, hrule⟩ := mem_predicateRules hentry
    obtain ⟨rfl, rfl⟩ := Prod.mk.inj hrule
    rw [List.mem_singleton.1 hp] at hyields
    rw [Nat.zero_add]
    exact ⟨q, hq, hyields⟩

theorem structuralRules_not_barren {c : Config} {blocks : Diminishing} {forms : Weighted} {r : Rule}
    {as : List Production} {p : Production} (hforms : forms.choices ≠ [])
    (hentry : (r, as) ∈ structuralRules c blocks forms) (hp : p ∈ as) : ¬ p.Barren := by
  simp only [structuralRules, List.mem_cons, Prod.mk.injEq, List.not_mem_nil, or_false] at hentry
  rcases hentry with ⟨rfl, rfl⟩ | ⟨rfl, rfl⟩ | ⟨rfl, rfl⟩ | ⟨rfl, rfl⟩ | ⟨rfl, rfl⟩ | ⟨rfl, rfl⟩ |
    ⟨rfl, rfl⟩ | ⟨rfl, rfl⟩ | ⟨rfl, rfl⟩ | ⟨rfl, rfl⟩
  case inr.inr.inr.inl =>
    rw [List.mem_singleton.1 hp]
    exact hforms
  case inr.inr.inr.inr.inr.inr.inr.inr.inr =>
    obtain ⟨i, _, rfl⟩ := List.mem_map.1 hp
    exact not_false
  all_goals
    rw [List.mem_singleton.1 hp]
    exact not_false

theorem predicateTable_not_barren {ps : List Predicate} {c : Config} {r : Rule}
    {as : List Production} {p : Production} (hentry : (r, as) ∈ predicateTable c ps) (hp : p ∈ as) :
    ¬ p.Barren := by
  rw [predicateTable, List.mem_append, List.mem_append] at hentry
  rcases hentry with (hentry | hentry) | hentry
  · simp only [List.mem_cons, Prod.mk.injEq, List.not_mem_nil, or_false] at hentry
    rcases hentry with ⟨rfl, rfl⟩ | ⟨rfl, rfl⟩ | ⟨rfl, rfl⟩
    all_goals
      obtain ⟨_, _, rfl⟩ := List.mem_map.1 hp
      exact not_false
  · obtain ⟨kind, _, hkind⟩ := List.mem_map.1 hentry
    obtain ⟨rfl, rfl⟩ := Prod.mk.inj hkind
    obtain ⟨_, _, rfl⟩ := List.mem_map.1 hp
    exact not_false
  · obtain ⟨i, q, _, hrule⟩ := mem_predicateRules hentry
    obtain ⟨rfl, rfl⟩ := Prod.mk.inj hrule
    rw [List.mem_singleton.1 hp]
    exact not_false

namespace Grammar

/-! ### Building -/

theorem mem_table_of_mem_alternatives {g : Grammar} {r : Rule} {p : Production}
    (h : p ∈ g.alternatives r) : ∃ alternatives, (r, alternatives) ∈ g.table ∧ p ∈ alternatives := by
  rw [alternatives, alternatives?] at h
  cases hl : lookup r g.table with
  | none => simp [hl] at h
  | some as =>
    rw [hl, Option.getD_some] at h
    exact ⟨as, lookup_mem hl, h⟩

theorem blockSampler_eq_ok {c : Config} {blocks : Diminishing} (h : blockSampler c = .ok blocks) :
    blocks.symbol = .rule .block := by
  unfold blockSampler at h
  rw [Diminishing.make_eq_ok (Result.mapError_eq_ok_iff.1 h)]

theorem conditionSampler_eq_ok {c : Config} {forms : Weighted}
    (h : conditionSampler c = .ok forms) : forms.choices = conditionForms c ∧ forms.choices ≠ [] := by
  unfold conditionSampler at h
  split at h
  · obtain ⟨hne, hforms⟩ := Weighted.make_eq_ok (Result.mapError_eq_ok_iff.1 h)
    rw [hforms]
    exact ⟨rfl, hne⟩
  · simp at h

/-- The grammar `g` was built for the predicates `ps` under a configuration. -/
structure Built (ps : List Predicate) (c : Config) (g : Grammar) : Prop where
  nodup : (ps.map Predicate.name).Nodup
  one_le : 1 ≤ c.scoreRange
  le_max : c.scoreRange ≤ maxScoreRange
  eq_table : ∃ blocks forms, blockSampler c = .ok blocks ∧ conditionSampler c = .ok forms ∧
    g = ⟨structuralRules c blocks forms ++ predicateTable c ps, ps, c.scoreRange⟩
  valid : g.validate .start = .ok ()

theorem build_eq_ok {ps : List Predicate} {c : Config} {g : Grammar} (h : build ps c = .ok g) :
    Built ps c g := by
  unfold build at h
  cases hnames : firstRepeated [] (ps.map Predicate.name) with
  | some name => simp [hnames, bind, Except.bind, throw, throwThe, MonadExceptOf.throw] at h
  | none =>
    have hnodup := ((firstRepeated_eq_none_iff [] _).1 hnames).1
    by_cases hrange : 1 ≤ c.scoreRange ∧ c.scoreRange ≤ maxScoreRange
    · rw [hnames, if_neg (not_not_intro hrange)] at h
      obtain ⟨blocks, hblocks, h⟩ := Result.bind_eq_ok_iff.1 h
      obtain ⟨forms, hforms, h⟩ := Result.bind_eq_ok_iff.1 h
      obtain ⟨_, hvalid, h⟩ := Result.bind_eq_ok_iff.1 h
      have hg := (Result.pure_eq_ok_iff.1 h).symm
      exact ⟨hnodup, hrange.1, hrange.2, ⟨blocks, forms, hblocks, hforms, hg⟩, hg ▸ hvalid⟩
    · simp [hnames, hrange, bind, Except.bind, throw, throwThe, MonadExceptOf.throw] at h

namespace Built

variable {ps : List Predicate} {c : Config} {g : Grammar}

theorem scoreRange_eq (h : Built ps c g) : g.scoreRange = c.scoreRange := by
  obtain ⟨blocks, forms, _, _, rfl⟩ := h.eq_table
  rfl

/-- What the alternatives of a rule yield stands below that rule. -/
theorem expands (h : Built ps c g) {r : Rule} {p : Production} {symbols : List Symbol}
    (hp : p ∈ g.alternatives r) (hyields : p.Yields symbols) : r.Expands ps c symbols := by
  obtain ⟨as, hentry, hpas⟩ := mem_table_of_mem_alternatives hp
  obtain ⟨blocks, forms, hblocks, hforms, rfl⟩ := h.eq_table
  rcases List.mem_append.1 hentry with hentry | hentry
  · exact structuralRules_expands (blockSampler_eq_ok hblocks) (conditionSampler_eq_ok hforms).1
      hentry hpas hyields
  · exact predicateTable_expands hentry hpas hyields

/-- Every alternative has something to draw from. -/
theorem not_barren (h : Built ps c g) {r : Rule} {p : Production} (hp : p ∈ g.alternatives r) :
    ¬ p.Barren := by
  obtain ⟨as, hentry, hpas⟩ := mem_table_of_mem_alternatives hp
  obtain ⟨blocks, forms, _, hforms, rfl⟩ := h.eq_table
  rcases List.mem_append.1 hentry with hentry | hentry
  · exact structuralRules_not_barren (conditionSampler_eq_ok hforms).2 hentry hpas
  · exact predicateTable_not_barren hentry hpas

/-- Every rule of a script has alternatives. -/
theorem alternatives_ne_nil (h : Built ps c g) {r : Rule} (hr : g.Reaches .start r) :
    g.alternatives r ≠ [] :=
  alternatives_ne_nil_of_validate h.valid hr

end Built

end Grammar

end ScoreScript
