import ScoreScript.Config
import ScoreScript.Grammar.Reachable

/-!
# The grammar of a list of predicates

Scripts are lists of blocks, a block is a condition with a body, a body adjusts the score, and a
condition is made of calls of predicates.  The structure of scripts is fixed; the configuration
decides on the weights, the operators and the adjustments, and each predicate adds a rule for its
call.

* `callSymbols` — the shape of a call: name, arguments, and for results that are no truth values an
  operator and a literal;
* `Grammar.build` — the grammar of a list of predicates, or the first thing that is wrong;
* `firstRepeated_eq_none_iff` — names are accepted exactly when they are pairwise distinct.
-/

namespace ScoreScript

/-! ### Distinct names -/

/-- The first name that is among those seen or repeats an earlier one. -/
def firstRepeated (seen : List String) : List String → Option String
  | [] => none
  | name :: rest => if name ∈ seen then some name else firstRepeated (name :: seen) rest

theorem firstRepeated_eq_none_iff (seen names : List String) :
    firstRepeated seen names = none ↔ names.Nodup ∧ ∀ name ∈ names, name ∉ seen := by
  induction names generalizing seen with
  | nil => simp [firstRepeated]
  | cons name rest ih =>
    simp only [firstRepeated]
    split
    · rename_i hseen
      simp [hseen]
    · rename_i hseen
      rw [ih, List.nodup_cons]
      simp only [List.mem_cons, forall_eq_or_imp, not_or]
      constructor
      · rintro ⟨hnodup, hall⟩
        exact ⟨⟨fun h => (hall name h).1 rfl, hnodup⟩, hseen, fun x hx => (hall x hx).2⟩
      · rintro ⟨⟨hnot, hnodup⟩, _, hall⟩
        exact ⟨hnodup, fun x hx => ⟨fun h => hnot (h ▸ hx), hall x hx⟩⟩

/-! ### Rules of the predicates -/

/-- The symbol for an argument. -/
def argumentSymbol : Param → Symbol
  | .state => .terminal .state
  | .action => .terminal .action
  | .choice kind => .rule (.literal kind)

/-- The operator and the literal that follow a call, unless its result is a truth value. -/
def comparisonSymbols (returns : Kind) : List Symbol :=
  match Rule.comparator? returns.kindClass with
  | none => []
  | some comparator => [.rule comparator, .rule (.literal returns)]

/-- A call: the name, the arguments in order, and the comparison of the result. -/
def callSymbols (p : Predicate) : List Symbol :=
  .terminal (.name p.name) :: (p.params.map argumentSymbol ++ comparisonSymbols p.returns)

/-- The kinds of which a call of the predicate contains literals. -/
def literalKinds (p : Predicate) : List Kind :=
  p.choices ++ if p.returns.kindClass = .boolean then [] else [p.returns]

/-- The rule of the predicate at each position from `index`. -/
def predicateRules (index : Nat) : List Predicate → RuleTable
  | [] => []
  | p :: rest =>
    (.predicate index, [.sequence (callSymbols p)]) :: predicateRules (index + 1) rest

/-- The rule of each kind of which some call contains literals. -/
def literalRules (predicates : List Predicate) : RuleTable :=
  (Kind.all.filter fun kind => kind ∈ predicates.flatMap literalKinds).map fun kind =>
    (.literal kind, kind.legal.map fun value => .one (.terminal (.value value)))

/-- The alternatives of an operator. -/
def comparatorAlternatives (set : ComparatorSet) (c : KindClass) : List Production :=
  (set.operators c).map fun op => .one (.terminal (.op op))

/-! ### Rules of the structure -/

/-- The adjustments of a range, zero left out. -/
def adjustments (range : Int) : List Int :=
  (Kind.intsBetween (-range) range).filter (· ≠ 0)

/-- The forms of conditions with their weights.  A form of weight zero is left out. -/
def conditionForms (c : Config) : List (Float × List Symbol) :=
  [(c.weights.atom, [.rule .atom]), (c.weights.conjunction, [.rule .conjunction]),
    (if c.allowDisjunction then c.weights.disjunction else 0.0, [.rule .disjunction]),
    (c.weights.negation, [.rule .negation])].filter fun form => form.1 != 0.0

/-- The rules that every script is made of, given the samplers of blocks and conditions. -/
def structuralRules (c : Config) (blocks : Diminishing) (forms : Weighted) : RuleTable :=
  [(.start, [.sampled (.diminishing blocks)]),
    (.block, [.sequence [.rule .condition, .rule .body]]),
    (.body, [.one (.rule .adjustment)]),
    (.condition, [.sampled (.weighted forms)]),
    (.conjunction, [.sequence [.rule .condition, .rule .condition]]),
    (.disjunction, [.sequence [.rule .condition, .rule .condition]]),
    (.negation, [.one (.rule .condition)]),
    (.atom, [.one (.rule .call)]),
    (.adjustment, [.one (.rule .amount)]),
    (.amount, (adjustments c.scoreRange).map fun i =>
      .one (.terminal (.value (.int (Int64.ofInt i)))))]

/-- The rules that depend on the predicates. -/
def predicateTable (c : Config) (predicates : List Predicate) : RuleTable :=
  [(.call, (List.range predicates.length).map fun i => .one (.rule (.predicate i))),
    (.numericComparator, comparatorAlternatives c.comparators .numeric),
    (.enumComparator, comparatorAlternatives c.comparators .enumerated)] ++
    literalRules predicates ++ predicateRules 0 predicates

theorem mem_adjustments {range i : Int} : i ∈ adjustments range ↔ -range ≤ i ∧ i ≤ range ∧ i ≠ 0 := by
  simp [adjustments, Kind.mem_intsBetween, and_assoc]

/-! ### Building -/

namespace Grammar

/-- The sampler of blocks. -/
def blockSampler (c : Config) : Except GrammarError Diminishing :=
  (Diminishing.make c.gamma (.rule .block)).mapError (.sampler .start)

/-- The sampler of conditions.  Without atoms conditions would never come to an end. -/
def conditionSampler (c : Config) : Except GrammarError Weighted :=
  if 0.0 < c.weights.atom && c.weights.atom.isFinite then
    (Weighted.make (conditionForms c)).mapError (.sampler .condition)
  else .error (.sampler .condition (.invalidWeight 0 c.weights.atom))

/-- The grammar of scripts over a list of predicates. -/
def build (predicates : List Predicate) (c : Config) : Except GrammarError Grammar := do
  if let some name := firstRepeated [] (predicates.map Predicate.name) then
    throw (.duplicatePredicate name)
  if ¬ (1 ≤ c.scoreRange ∧ c.scoreRange ≤ maxScoreRange) then
    throw (.invalidScoreRange c.scoreRange)
  let blocks ← blockSampler c
  let forms ← conditionSampler c
  let g : Grammar := ⟨structuralRules c blocks forms ++ predicateTable c predicates, predicates,
    c.scoreRange⟩
  g.validate .start
  return g

end Grammar

end ScoreScript
