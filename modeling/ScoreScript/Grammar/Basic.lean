import ScoreScript.Grammar.Sampler

/-!
# Grammars

A grammar registers rules, each with its alternatives, and remembers the predicates that it was
made for.

* `Grammar.alternatives?` — the alternatives of a rule, when it is registered;
* `Grammar.ofRules` — a grammar of given rules, in which the last entry of a rule counts;
* `Grammar.lookup_insert` — what an entry changes;
* `Grammar.ruleList` — the registered rules, and `Grammar.ruleList_sorted` — in their order.
-/

namespace ScoreScript

/-- Registered rules with their alternatives. -/
abbrev RuleTable := List (Rule × List Production)

/-- A rule table, the predicates that it was made for and the greatest score adjustment. -/
structure Grammar where
  table : RuleTable
  predicates : List Predicate
  scoreRange : Int

namespace Grammar

/-- The alternatives of a rule, when it is registered. -/
def lookup (r : Rule) : RuleTable → Option (List Production)
  | [] => none
  | (key, alternatives) :: rest => if key = r then some alternatives else lookup r rest

/-- The table in which a rule has new alternatives. -/
def insert (table : RuleTable) (entry : Rule × List Production) : RuleTable :=
  match table with
  | [] => [entry]
  | (key, alternatives) :: rest =>
    if key = entry.1 then entry :: rest else (key, alternatives) :: insert rest entry

theorem lookup_insert (table : RuleTable) (key r : Rule) (alternatives : List Production) :
    lookup r (insert table (key, alternatives)) =
      if key = r then some alternatives else lookup r table := by
  induction table with
  | nil => rfl
  | cons first rest ih =>
    obtain ⟨k, as⟩ := first
    by_cases hk : k = key
    · subst hk
      simp only [insert, if_true, lookup]
      split <;> rfl
    · by_cases hr : k = r
      · subst hr
        have hkey : ¬ key = k := fun h => hk h.symm
        simp [insert, lookup, hk, hkey]
      · simp [insert, lookup, hk, hr, ih]

/-- The grammar of given rules.  Of two entries for a rule the last one counts. -/
def ofRules (entries : RuleTable) : Grammar where
  table := entries.foldl insert []
  predicates := []
  scoreRange := 0

/-- The alternatives of a rule, when it is registered. -/
def alternatives? (g : Grammar) (r : Rule) : Option (List Production) :=
  lookup r g.table

/-- The alternatives of a rule; an unregistered rule has none. -/
def alternatives (g : Grammar) (r : Rule) : List Production :=
  (g.alternatives? r).getD []

/-- The registered rules, in their order. -/
def ruleList (g : Grammar) : List Rule :=
  (g.table.map (·.1)).mergeSort Rule.precedes

theorem mem_ruleList {g : Grammar} {r : Rule} : r ∈ g.ruleList ↔ r ∈ g.table.map (·.1) := by
  rw [ruleList, List.mem_mergeSort]

theorem ruleList_sorted (g : Grammar) : g.ruleList.Pairwise fun a b => a.precedes b = true :=
  List.pairwise_mergeSort Rule.precedes_trans Rule.precedes_total _

/-- The rules that the alternatives of a rule mention, in order. -/
def mentions (g : Grammar) (r : Rule) : List Rule :=
  (g.alternatives r).flatMap Production.rules

theorem mem_mentions {g : Grammar} {r r' : Rule} :
    r' ∈ g.mentions r ↔ ∃ p ∈ g.alternatives r, Symbol.rule r' ∈ p.symbols := by
  simp [mentions, Production.mem_rules]

end Grammar

end ScoreScript
