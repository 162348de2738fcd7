import ScoreScript.Proofs.Grammar.Occurrence

/-!
# When there is a grammar, and what is in it

Predicates and a configuration have to meet six demands, which are looked at one after another.  The
first one that is not met prevents the grammar and is reported.

* `Grammar.Demand`, `Grammar.FirstUnmet` — a demand, and the error for the first one that is not met;
* `Grammar.Enforces`, `Grammar.Enforces.bind` — a computation that fails at the first demand unmet, and
  two of them, one after the other;
* `Grammar.demands`, `Grammar.build_enforces` — the demands that building makes;
* `Grammar.build_exact` — which grammars there are, what prevents the others, and their rules.
-/

namespace ScoreScript

namespace Grammar

/-! ### Demands -/

/-- A demand on what a grammar is made of, and the errors that report it as unmet. -/
structure Demand where
  Holds : Prop
  Reports : GrammarError → Prop

/-- The error reports the first of the demands that is not met. -/
def FirstUnmet : List Demand → GrammarError → Prop
  | [], _ => False
  | d :: ds, e => ¬ d.Holds ∧ d.Reports e ∨ d.Holds ∧ FirstUnmet ds e

/-- The computation succeeds if the demands are met, and otherwise reports the first one that is not. -/
structure Enforces {α : Type} (ds : List Demand) (x : Except GrammarError α) : Prop where
  ok_iff : (∃ a, x = .ok a) ↔ ∀ d ∈ ds, d.Holds
  error_iff : ∀ e, x = .error e ↔ FirstUnmet ds e

theorem firstUnmet_append {ds ds' : List Demand} {e : GrammarError} :
    FirstUnmet (ds ++ ds') e ↔ FirstUnmet ds e ∨ (∀ d ∈ ds, d.Holds) ∧ FirstUnmet ds' e := by
  induction ds with
  | nil => simp [FirstUnmet]
  | cons d ds ih =>
    rw [List.cons_append, FirstUnmet, FirstUnmet, ih, List.forall_mem_cons]
    by_cases hd : d.Holds
    · simp [hd]
    · simp [hd]

namespace Enforces

variable {α β : Type} {d : Demand} {ds ds' : List Demand}

theorem done (a : α) : Enforces [] (.ok a : Except GrammarError α) where
  ok_iff := by simp
  error_iff e := by simp [FirstUnmet]

theorem of_met {a : α} (h : d.Holds) : Enforces [d] (.ok a : Except GrammarError α) where
  ok_iff := by simp [h]
  error_iff e := by simp [FirstUnmet, h]

theorem of_unmet {e : GrammarError} (h : ¬ d.Holds) (he : ∀ e', d.Reports e' ↔ e' = e) :
    Enforces [d] (.error e : Except GrammarError α) where
  ok_iff := by simp [h]
  error_iff e' := by simp [FirstUnmet, h, he, eq_comm]

/-- What goes on after its demands are met makes further demands. -/
theorem bind {x : Except GrammarError α} {f : α → Except GrammarError β} (hx : Enforces ds x)
    (hf : ∀ a, x = .ok a → Enforces ds' (f a)) : Enforces (ds ++ ds') (x >>= f) := by
  cases hresult : x with
  | error e =>
    have hunmet : ¬ ∀ d ∈ ds, d.Holds := by
      rw [← hx.ok_iff, hresult]
      simp
    constructor
    · refine iff_of_false ?_ fun hall => hunmet fun d hd => hall d (List.mem_append_left _ hd)
      rintro ⟨b, hb⟩
      cases hb
    · intro e'
      rw [firstUnmet_append, or_iff_left (fun h => hunmet h.1), ← hx.error_iff, hresult]
      exact ⟨fun h => congrArg _ (Except.error.inj h), fun h => congrArg _ (Except.error.inj h)⟩
  | ok a =>
    have hmet : ∀ d ∈ ds, d.Holds := hx.ok_iff.1 ⟨a, hresult⟩
    have hnone : ∀ e, ¬ FirstUnmet ds e := by
      intro e he
      have herror := (hx.error_iff e).2 he
      rw [hresult] at herror
      cases herror
    have ha := hf a hresult
    constructor
    · show (∃ b, f a = .ok b) ↔ _
      rw [ha.ok_iff, List.forall_mem_append]
      exact (and_iff_right hmet).symm
    · intro e
      show f a = .error e ↔ _
      rw [firstUnmet_append, or_iff_right (hnone e), and_iff_right hmet, ha.error_iff]

end Enforces

/-- The names differ.  Otherwise the first one that stands among those before it is reported. -/
def distinctNames (ps : List Predicate) : Demand where
  Holds := (ps.map Predicate.name).Nodup
  Reports e := ∃ before name after, ps.map Predicate.name = before ++ name :: after ∧
    before.Nodup ∧ name ∈ before ∧ e = .duplicatePredicate name

/-- The score range is one of 1 to 8. -/
def narrowRange (c : Config) : Demand where
  Holds := 1 ≤ c.scoreRange ∧ c.scoreRange ≤ 8
  Reports e := e = .invalidScoreRange c.scoreRange

/-- Blocks can be repeated with the probability that is given. -/
def repeatableBlocks (c : Config) : Demand where
  Holds := ∃ blocks, Diminishing.make c.gamma (.rule .block) = .ok blocks
  Reports e := e = .sampler .start (.invalidGamma c.gamma)

/-- The weight of atoms is positive and finite. -/
def weightedAtoms (c : Config) : Demand where
  Holds := 0.0 < c.weights.atom ∧ c.weights.atom.isFinite = true
  Reports e := e = .sampler .condition (.invalidWeight 0 c.weights.atom)

/-- The forms that may occur can be drawn with their weights. -/
def drawableForms (c : Config) : Demand where
  Holds := ∃ forms, Weighted.make c.countedShapes = .ok forms
  Reports e := ∃ cause, Weighted.make c.countedShapes = .error cause ∧ e = .sampler .condition cause

/-- There is something to call. -/
def somePredicate (ps : List Predicate) : Demand where
  Holds := ps ≠ []
  Reports e := e = .emptyRule .call

/-- The demands on predicates and a configuration, in the order in which they are made. -/
def demands (ps : List Predicate) (c : Config) : List Demand :=
  [distinctNames ps, narrowRange c, repeatableBlocks c, weightedAtoms c, drawableForms c,
    somePredicate ps]

/-! ### Building -/

variable {ps : List Predicate} {c : Config}

/-- The name that is reported is the first one that stands among those before it. -/
theorem firstRepeated_eq_some_iff {seen : List String} (hseen : seen.Nodup) (names : List String)
    (name : String) :
    firstRepeated seen names = some name ↔
      ∃ before after, names = before ++ name :: after ∧ (before.reverse ++ seen).Nodup ∧
        name ∈ before.reverse ++ seen := by
  induction names generalizing seen with
  | nil => simp [firstRepeated]
  | cons first rest ih =>
    have hsplit : ∀ before, (first :: before).reverse ++ seen = before.reverse ++ first :: seen := by
      simp
    rw [firstRepeated]
    by_cases hfirst : first ∈ seen
    · rw [if_pos hfirst, Option.some.injEq]
      constructor
      · rintro rfl
        exact ⟨[], rest, rfl, hseen, hfirst⟩
      · rintro ⟨before, after, hnames, hnodup, _⟩
        cases before with
        | nil => exact (List.cons.inj hnames).1
        | cons first' before =>
          obtain ⟨rfl, _⟩ := List.cons.inj hnames
          rw [hsplit] at hnodup
          have hrest := (List.nodup_append.1 hnodup).2.1
          exact absurd hfirst (List.nodup_cons.1 hrest).1
    · rw [if_neg hfirst, ih (List.nodup_cons.2 ⟨hfirst, hseen⟩)]
      constructor
      · rintro ⟨before, after, rfl, hnodup, hname⟩
        exact ⟨first :: before, after, rfl, by rwa [hsplit], by rwa [hsplit]⟩
      · rintro ⟨before, after, hnames, hnodup, hname⟩
        cases before with
        | nil =>
          obtain ⟨rfl, _⟩ := List.cons.inj hnames
          exact absurd hname hfirst
        | cons first' before =>
          obtain ⟨rfl, rfl⟩ := List.cons.inj hnames
          rw [hsplit] at hnodup hname
          exact ⟨before, after, rfl, hnodup, hname⟩

/-- The check of the names. -/
def checkNames (ps : List Predicate) : Except GrammarError Unit :=
  match firstRepeated [] (ps.map Predicate.name) with
  | some name => .error (.duplicatePredicate name)
  | none => .ok ()

/-- The check of the score range. -/
def checkRange (c : Config) : Except GrammarError Unit :=
  if 1 ≤ c.scoreRange ∧ c.scoreRange ≤ maxScoreRange then .ok ()
  else .error (.invalidScoreRange c.scoreRange)

/-- A grammar is made by one step after another. -/
theorem build_eq (ps : List Predicate) (c : Config) :
    build ps c = checkNames ps >>= fun _ => checkRange c >>= fun _ =>
      blockSampler c >>= fun blocks => conditionSampler c >>= fun forms =>
        (assembled ps c blocks forms).validate .start >>= fun _ =>
          .ok (assembled ps c blocks forms) := by
  unfold build checkNames checkRange
  cases firstRepeated [] (ps.map Predicate.name) with
  | some name => rfl
  | none =>
    by_cases hrange : 1 ≤ c.scoreRange ∧ c.scoreRange ≤ maxScoreRange
    · rw [if_neg (not_not_intro hrange), if_pos hrange]
      rfl
    · rw [if_pos hrange, if_neg hrange]
      rfl

/-! ### What each step demands -/

theorem checkNames_enforces : Enforces [distinctNames ps] (checkNames ps) := by
  have hfirst := firstRepeated_eq_some_iff List.nodup_nil (ps.map Predicate.name)
  simp only [List.append_nil, (List.reverse_perm _).nodup_iff, List.mem_reverse] at hfirst
  unfold checkNames
  cases hnames : firstRepeated [] (ps.map Predicate.name) with
  | none => exact .of_met ((firstRepeated_eq_none_iff [] _).1 hnames).1
  | some name =>
    apply Enforces.of_unmet
    · intro hnodup
      have hnone := (firstRepeated_eq_none_iff [] _).2 ⟨hnodup, fun _ _ => List.not_mem_nil⟩
      rw [hnone] at hnames
      cases hnames
    · intro e
      constructor
      · rintro ⟨before, name', after, hsplit, hnodup, hmem, rfl⟩
        have hname' := (hfirst name').2 ⟨before, after, hsplit, hnodup, hmem⟩
        rw [hnames] at hname'
        rw [Option.some.inj hname']
      · rintro rfl
        obtain ⟨before, after, hsplit, hnodup, hmem⟩ := (hfirst name).1 hnames
        exact ⟨before, name, after, hsplit, hnodup, hmem, rfl⟩

theorem checkRange_enforces : Enforces [narrowRange c] (checkRange c) := by
  unfold checkRange
  split
  · rename_i hrange
    exact .of_met hrange
  · rename_i hrange
    exact .of_unmet hrange fun _ => Iff.rfl

theorem blockSampler_enforces : Enforces [repeatableBlocks c] (blockSampler c) := by
  unfold blockSampler Diminishing.make
  split
  · rename_i hgamma
    exact .of_met ⟨_, if_pos hgamma⟩
  · rename_i hgamma
    refine .of_unmet ?_ fun _ => Iff.rfl
    rintro ⟨blocks, hblocks⟩
    rw [Diminishing.make, if_neg hgamma] at hblocks
    cases hblocks

theorem conditionSampler_enforces :
    Enforces ([weightedAtoms c] ++ [drawableForms c]) (conditionSampler c) := by
  unfold conditionSampler
  rw [conditionForms_eq]
  split
  · rename_i hatom
    rw [Bool.and_eq_true, decide_eq_true_eq] at hatom
    have hmet : Enforces [weightedAtoms c] (.ok () : Except GrammarError Unit) := .of_met hatom
    refine hmet.bind (f := fun _ => (Weighted.make c.countedShapes).mapError _) fun _ _ => ?_
    cases hforms : Weighted.make c.countedShapes with
    | ok forms => exact .of_met ⟨forms, hforms⟩
    | error cause =>
      apply Enforces.of_unmet
      · rintro ⟨forms, hmade⟩
        rw [hforms] at hmade
        cases hmade
      · intro e
        constructor
        · rintro ⟨cause', hcause, rfl⟩
          rw [hforms] at hcause
          rw [Except.error.inj hcause]
        · rintro rfl
          exact ⟨cause, hforms, rfl⟩
  · rename_i hatom
    rw [Bool.and_eq_true, decide_eq_true_eq] at hatom
    have hunmet := Enforces.of_unmet (α := Weighted) (d := weightedAtoms c) hatom fun _ => Iff.rfl
    exact hunmet.bind (f := .ok) fun _ h => nomatch h

/-- An assembled grammar is valid if there is a predicate.  Without predicates there is nothing to
call. -/
theorem validate_enforces {blocks : Diminishing} {forms : Weighted}
    (hblocks : blocks.symbol = .rule .block) (hforms : forms.choices = conditionForms c)
    (hatom : 0.0 < c.weights.atom) (hrange : 1 ≤ c.scoreRange) :
    Enforces [somePredicate ps] ((assembled ps c blocks forms).validate .start) := by
  have hreached : ∀ r, r ∈ (assembled ps c blocks forms).reachable .start ↔ r.Occurs ps c := by
    intro r
    rw [mem_reachable_iff, assembled_reaches_iff hblocks hforms hatom]
  by_cases hps : ps = []
  · have hcall : (assembled ps c blocks forms).alternatives .call = [] := by
      rw [hps]
      rfl
    have hfirst : ((assembled ps c blocks forms).reachable .start).find?
        (fun r => ((assembled ps c blocks forms).alternatives r).isEmpty) = some .call := by
      cases hfound : ((assembled ps c blocks forms).reachable .start).find?
          (fun r => ((assembled ps c blocks forms).alternatives r).isEmpty) with
      | none =>
        have hnone := List.find?_eq_none.1 hfound .call ((hreached .call).2 trivial)
        rw [hcall] at hnone
        exact absurd rfl hnone
      | some r =>
        have hr := (hreached r).1 (List.mem_of_find?_eq_some hfound)
        have hempty := List.find?_some hfound
        by_contra hne
        refine alternatives_assembled_ne_nil hrange hr (fun h => ?_) (List.isEmpty_iff.1 hempty)
        exact (hne (congrArg some h)).elim
    rw [validate, hfirst]
    exact .of_unmet (not_not_intro hps) fun _ => Iff.rfl
  · have hvalid : (assembled ps c blocks forms).validate .start = .ok () := by
      rw [validate_eq_ok_iff]
      intro r hr
      exact alternatives_assembled_ne_nil hrange ((hreached r).1 hr) fun _ => hps
    rw [hvalid]
    exact .of_met hps

/-- What the samplers that were made are like. -/
theorem samplers_eq_ok {blocks : Diminishing} {forms : Weighted} (hblocks : blockSampler c = .ok blocks)
    (hforms : conditionSampler c = .ok forms) :
    blocks.symbol = .rule .block ∧ forms.choices = conditionForms c ∧ 0.0 < c.weights.atom := by
  have hatom := conditionSampler_enforces.ok_iff.1 ⟨forms, hforms⟩ (weightedAtoms c) (by simp)
  exact ⟨blockSampler_eq_ok hblocks, (conditionSampler_eq_ok hforms).1, hatom.1⟩

/-- Building makes the demands, one after another. -/
theorem build_enforces (ps : List Predicate) (c : Config) : Enforces (demands ps c) (build ps c) := by
  rw [build_eq]
  refine checkNames_enforces.bind fun _ _ => checkRange_enforces.bind fun _ hrange =>
    blockSampler_enforces.bind fun blocks hblocks =>
      conditionSampler_enforces.bind fun forms hforms => ?_
  obtain ⟨hsymbol, hchoices, hatom⟩ := samplers_eq_ok hblocks hforms
  have hnarrow := checkRange_enforces.ok_iff.1 ⟨_, hrange⟩ (narrowRange c) (by simp)
  exact (validate_enforces hsymbol hchoices hatom hnarrow.1).bind fun _ _ => .done _

/-- **When there is a grammar, and what is in it.**  Building succeeds exactly if all demands on the
predicates and the configuration are met, and otherwise reports the first one that is not.  The rules
reachable from the start of a grammar that was built are those that occur in scripts over the
predicates, and each of them has alternatives. -/
theorem build_exact (ps : List Predicate) (c : Config) :
    ((∃ g, build ps c = .ok g) ↔ ∀ d ∈ demands ps c, d.Holds) ∧
    (∀ e, build ps c = .error e ↔ FirstUnmet (demands ps c) e) ∧
    ∀ g, build ps c = .ok g →
      ∀ r, (r ∈ g.reachable .start ↔ r.Occurs ps c) ∧
        (r ∈ g.reachable .start → g.alternatives r ≠ []) := by
  have henforces := build_enforces ps c
  refine ⟨henforces.ok_iff, henforces.error_iff, fun g hg r => ?_⟩
  have hbuilt := build_eq_ok hg
  obtain ⟨blocks, forms, hblocks, hforms, htable⟩ := hbuilt.eq_table
  obtain ⟨hsymbol, hchoices, hatom⟩ := samplers_eq_ok hblocks hforms
  have hreached : g.Reaches .start r ↔ r.Occurs ps c := by
    rw [htable]
    exact assembled_reaches_iff hsymbol hchoices hatom
  exact ⟨mem_reachable_iff.trans hreached,
    fun hr => hbuilt.alternatives_ne_nil (mem_reachable_iff.1 hr)⟩

/-- A truth value, and a number with a choice. -/
def smallPredicates : List Predicate :=
  [⟨"stab", [.action], .bool⟩, ⟨"boost", [.state, .choice .baseStat], .statModifier⟩]

/-- The small predicates make a grammar in which numbers are compared and nothing else. -/
theorem build_exact_small :
    ∃ g, build smallPredicates .default = .ok g ∧ .numericComparator ∈ g.reachable .start ∧
      .enumComparator ∉ g.reachable .start ∧ g.alternatives (.literal .baseStat) ≠ [] := by
  have hbuilds : (build smallPredicates .default).toOption.any (fun _ => true) = true := by
    decide +kernel
  obtain ⟨g, hg, _⟩ := Result.exists_of_any hbuilds
  have hrules := (build_exact smallPredicates .default).2.2 g hg
  have hliteral : (Rule.literal .baseStat).Occurs smallPredicates .default :=
    ⟨_, List.mem_cons_of_mem _ List.mem_cons_self, Or.inl (by decide)⟩
  refine ⟨g, hg, (hrules _).1.2 ⟨_, List.mem_cons_of_mem _ List.mem_cons_self, rfl⟩, ?_,
    (hrules _).2 ((hrules _).1.2 hliteral)⟩
  rw [(hrules _).1]
  simp [Rule.Occurs, smallPredicates, Kind.kindClass]

end Grammar

end ScoreScript
