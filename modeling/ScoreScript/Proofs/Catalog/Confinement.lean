import ScoreScript.Proofs.Catalog.Steps
import ScoreScript.Proofs.Evaluation.Meaning

/-!
# Calls are confined to the catalog

Whatever way a script came about, its calls go to implementations that were attached to enabled
registrations, and they pass one legal literal for each choice that the registration declares.  No
other implementation has any bearing on scores.

* `Run.mem_calls_bind`, `Condition.mem_calls_of_run`, `mem_calls_of_scoreFrom` — a run makes no calls
  but those of its blocks;
* `Call.Confined` — a call of a registered predicate with legal literals;
* `Call.WellTyped.confined` — well-typed calls are confined to what was registered;
* `Registry.smallSteps` — steps that make the small catalog and register two predicates in vain;
* `Generator.calls_confined` — the calls of every accepted script are, and excluded implementations
  are irrelevant.
-/

namespace ScoreScript

variable {S A α β : Type}

/-! ### The calls of a run -/

theorem Run.mem_calls_bind {x : Run α} {f : α → Run β} {c : Call} (h : c ∈ (x >>= f).calls) :
    c ∈ x.calls ∨ ∃ value, c ∈ (f value).calls := by
  change c ∈ (x.andThen f).calls at h
  cases hresult : x.result with
  | error e =>
    rw [andThen_error hresult] at h
    exact .inl h
  | ok value =>
    rw [andThen_ok hresult] at h
    exact (List.mem_append.1 h).imp_right fun h => ⟨value, h⟩

theorem Run.mem_calls_visit_bind {id : NodeId} {f : Unit → Run β} {c : Call}
    (h : c ∈ (Run.visit id >>= f).calls) : c ∈ (f ()).calls :=
  (mem_calls_bind h).elim (fun h => absurd h List.not_mem_nil) fun ⟨_, h⟩ => h

/-- Every call that a condition makes stands in the condition. -/
theorem Condition.mem_calls_of_run {answers : Answers} {condition : Condition} {c : Call}
    (h : c ∈ (condition.run answers).calls) : c ∈ condition.calls := by
  induction condition with
  | call id call =>
    rcases Run.mem_calls_bind (Run.mem_calls_visit_bind h) with h | ⟨value, h⟩
    · exact h
    · rw [(silent_asTruth _ _).calls_eq] at h
      exact absurd h List.not_mem_nil
  | compare id call op literal =>
    rcases Run.mem_calls_bind (Run.mem_calls_visit_bind h) with h | ⟨value, h⟩
    · exact h
    · rw [(silent_asComparison _ _ _ _).calls_eq] at h
      exact absurd h List.not_mem_nil
  | and id a b iha ihb =>
    rcases Run.mem_calls_bind (Run.mem_calls_visit_bind h) with h | ⟨first, h⟩
    · exact List.mem_append_left _ (iha h)
    · cases first with
      | true => exact List.mem_append_right _ (ihb h)
      | false => exact absurd h List.not_mem_nil
  | or id a b iha ihb =>
    rcases Run.mem_calls_bind (Run.mem_calls_visit_bind h) with h | ⟨first, h⟩
    · exact List.mem_append_left _ (iha h)
    · cases first with
      | true => exact absurd h List.not_mem_nil
      | false => exact List.mem_append_right _ (ihb h)
  | not id a ih =>
    rcases Run.mem_calls_bind (Run.mem_calls_visit_bind h) with h | ⟨inner, h⟩
    · exact ih h
    · exact absurd h List.not_mem_nil

/-- Every call that scoring makes stands in the condition of a block. -/
theorem mem_calls_of_scoreFrom {answers : Answers} {total : Int} {blocks : List Block} {c : Call}
    (h : c ∈ (scoreFrom answers total blocks).calls) : ∃ b ∈ blocks, c ∈ b.condition.calls := by
  induction blocks generalizing total with
  | nil => exact absurd h List.not_mem_nil
  | cons b rest ih =>
    rcases Run.mem_calls_bind (Run.mem_calls_visit_bind h) with h | ⟨holds, h⟩
    · exact ⟨b, List.mem_cons_self, Condition.mem_calls_of_run h⟩
    · have hrest : ∃ total', c ∈ (scoreFrom answers total' rest).calls := by
        cases holds with
        | true =>
          rcases Run.mem_calls_bind h with h | h
          · rw [(silent_adjust _ _ _).calls_eq] at h
            exact absurd h List.not_mem_nil
          · exact h
        | false => exact (Run.mem_calls_bind h).resolve_left List.not_mem_nil
      obtain ⟨total', h⟩ := hrest
      obtain ⟨b', hb', hc⟩ := ih h
      exact ⟨b', List.mem_cons_of_mem _ hb', hc⟩

theorem Condition.WellTyped.of_mem_calls {ps : List Predicate} {condition : Condition}
    (h : condition.WellTyped ps) {c : Call} (hc : c ∈ condition.calls) : c.WellTyped ps := by
  induction condition with
  | call id call => exact List.mem_singleton.1 hc ▸ h.1
  | compare id call op value => exact List.mem_singleton.1 hc ▸ h.1
  | and id a b iha ihb | or id a b iha ihb =>
    rcases List.mem_append.1 hc with hc | hc
    · exact iha h.1 hc
    · exact ihb h.2 hc
  | not id a ih => exact ih h hc

/-! ### Confined calls -/

/-- The call is answered by an implementation that is attached to an enabled registration, and it
passes a legal literal for each choice that the registration declares, in order. -/
def Call.Confined (enabled : Capabilities) (registrations : List (Registration S A))
    (catalog : Catalog S A) (c : Call) : Prop :=
  ∃ r ∈ registrations, ∃ f, r.Supplies enabled c.predicate f ∧
    (∀ s a, catalog.answers s a c.target c.arguments = f s a c.arguments) ∧
    List.Forall₂ (fun kind value => value ∈ kind.legal) (r.params.filterMap Param.choice?) c.arguments

theorem Call.WellTyped.confined {enabled : Capabilities} {registry : Registry S A}
    {catalog : Catalog S A} (hbuild : registry.build enabled = .ok catalog) {c : Call}
    (h : c.WellTyped catalog.predicates) : c.Confined enabled registry.registrations catalog := by
  obtain ⟨f, hentry⟩ := h.exists_entry
  obtain ⟨r, hr, hsupplies⟩ := Registry.supplies_of_build hbuild (List.mem_of_getElem? hentry)
  refine ⟨r, hr, f, hsupplies, fun s a => Catalog.answers_of_entry hentry s a c.arguments, ?_⟩
  rw [hsupplies.params_eq]
  exact h.legal.imp fun kind value hvalue => (Kind.contains_iff_mem_legal kind value).1 hvalue

/-! ### A small registry -/

namespace Registry

/-- Steps that make the small catalog.  They also register a predicate that is not enabled and
declare one whose result has no kind, both with the implementation `idle`. -/
def smallSteps (idle : Implementation Unit Unit) : List (Step Unit Unit) :=
  [.declare "predicate stab(action) -> bool\npredicate mood(state) -> Mood",
    .register ⟨"peek", [.state], some (.kind .bool), ⟨16⟩, some idle⟩,
    .declare "predicate boost(state, BaseStatCategory) -> BattleStatModifier",
    .bind "boost" fun _ _ _ => .int 2,
    .bind "stab" fun _ _ _ => .bool true,
    .bind "mood" idle]

/-- The registry after these steps. -/
def small (idle : Implementation Unit Unit) : Registry Unit Unit :=
  ⟨[⟨"stab", [.action], some (.named "bool"), .core, some fun _ _ _ => .bool true⟩,
    ⟨"mood", [.state], some (.named "Mood"), .core, some idle⟩,
    ⟨"peek", [.state], some (.kind .bool), ⟨16⟩, some idle⟩,
    ⟨"boost", [.state, .choice .baseStat], some (.named "BattleStatModifier"), .core,
      some fun _ _ _ => .int 2⟩], []⟩

theorem run_smallSteps (idle : Implementation Unit Unit) :
    empty.run (smallSteps idle) = .ok (small idle) := by
  have hfirst : Declaration.parse "predicate stab(action) -> bool\npredicate mood(state) -> Mood" =
      .ok [⟨"stab", [.action], "bool", .core⟩, ⟨"mood", [.state], "Mood", .core⟩] := by
    decide +kernel
  have hsecond : Declaration.parse
      "predicate boost(state, BaseStatCategory) -> BattleStatModifier" =
      .ok [⟨"boost", [.state, .choice .baseStat], "BattleStatModifier", .core⟩] := by
    decide +kernel
  simp only [smallSteps, run, Step.apply, declare, hfirst, hsecond]
  rfl

theorem build_small (idle : Implementation Unit Unit) :
    (small idle).build .core = .ok Catalog.small := by
  simp only [build, small, entries, Registration.entry]
  rfl

theorem name_of_enters_small {idle : Implementation Unit Unit}
    {r : Registration Unit Unit} (hr : r ∈ (small idle).registrations) (h : r.Enters .core) :
    r.name = "stab" ∨ r.name = "boost" := by
  simp only [small, List.mem_cons, List.not_mem_nil, or_false] at hr
  obtain ⟨hintersects, kind, hkind⟩ := h
  rcases hr with rfl | rfl | rfl | rfl
  · exact .inl rfl
  · cases hkind
  · have hdisabled : Capabilities.intersects ⟨16⟩ .core = false := rfl
    exact absurd (hdisabled.symm.trans hintersects) Bool.false_ne_true
  · exact .inr rfl

theorem excludes_small (idle : Implementation Unit Unit) {name : String}
    (h : name ≠ "stab" ∧ name ≠ "boost") : (small idle).Excludes .core name := by
  rintro r hr rfl henters
  exact (name_of_enters_small hr henters).elim h.1 h.2

theorem smallSteps_sameBut (idle idle' : Implementation Unit Unit) :
    List.Forall₂ (Step.SameBut ((small idle).Excludes .core)) (smallSteps idle)
      (smallSteps idle') := by
  have hpeek : (small idle).Excludes .core "peek" := excludes_small idle (by decide)
  have hmood : (small idle).Excludes .core "mood" := excludes_small idle (by decide)
  exact .cons (.declare _) <| .cons (.register ⟨rfl, rfl, rfl, rfl, absurd hpeek⟩) <|
    .cons (.declare _) <| .cons (.bind fun _ => rfl) <| .cons (.bind fun _ => rfl) <|
    .cons (.bind (absurd hmood)) .nil

end Registry

/-! ### Accepted scripts -/

namespace Generator

/-- The calls that scoring an accepted script makes are well typed. -/
theorem Accepts.wellTyped_of_mem_calls {g : Generator S A} {script : Script S A}
    (h : g.Accepts script) {s : S} {a : A} {c : Call} (hc : c ∈ (script.score s a).calls) :
    c.WellTyped g.catalog.predicates := by
  obtain ⟨b, hb, hc⟩ := mem_calls_of_scoreFrom hc
  exact (h.wellTyped b hb).condition.of_mem_calls hc

/-- **Calls are confined.**  Let a catalog be built, for a set of enabled capabilities, of what steps
registered.  Every call that scoring a script over the catalog makes is answered by the implementation
of an enabled registration with a known kind, and passes it one legal literal for each declared
choice.  Steps that give other implementations to registrations that are disabled or have no known
kind build the same catalog, and the scripts over it have the same scores, traces and reports. -/
theorem calls_confined {steps : List (Registry.Step S A)} {registry : Registry S A}
    {enabled : Capabilities} {catalog : Catalog S A} {config : Config} {g : Generator S A}
    {script : Script S A} (hsteps : Registry.empty.run steps = .ok registry)
    (hbuild : registry.build enabled = .ok catalog) (hmake : make catalog config = .ok g)
    (hscript : g.Accepts script) (s : S) (a : A) :
    (∀ c ∈ (script.score s a).calls,
      c.Confined enabled registry.registrations script.catalog) ∧
    ∀ steps', List.Forall₂ (Registry.Step.SameBut (registry.Excludes enabled)) steps steps' →
      ∃ registry', Registry.empty.run steps' = .ok registry' ∧
        registry'.build enabled = .ok catalog ∧
        ∀ g' script', make catalog config = .ok g' → g'.Accepts script' →
          script'.tree = script.tree →
          script'.score s a = script.score s a ∧ script'.trace s a = script.trace s a ∧
            ∀ candidates, script'.report s candidates = script.report s candidates := by
  have hmade := make_eq_ok hmake
  constructor
  · intro c hc
    have hwellTyped := hscript.wellTyped_of_mem_calls hc
    rw [hscript.catalog_eq, hmade.catalog_eq]
    rw [hmade.catalog_eq] at hwellTyped
    exact hwellTyped.confined hbuild
  · intro steps' hsame
    obtain ⟨registry', hsteps', hagree⟩ := Registry.run_sameBut hsame (.refl _) hsteps
    refine ⟨registry', hsteps', (Registry.build_congr hagree).trans hbuild, ?_⟩
    intro g' script' hmake' hscript' htree
    obtain rfl : g = g' := Except.ok.inj (hmake.symm.trans hmake')
    -- the script of a tree is determined by the tree
    have hcompile := hscript'.compileTree_eq
    rw [htree, hscript.compileTree_eq] at hcompile
    obtain rfl := Except.ok.inj hcompile
    exact ⟨rfl, rfl, fun _ => rfl⟩

/-- The script with wrappers makes two calls, of predicates that were declared in two texts, and the
predicates that were left out may have other implementations. -/
theorem calls_confined_small :
    ∃ g script, make Catalog.small .default = .ok g ∧ g.compileTree .wrapped = .ok script ∧
      (script.score () ()).calls.length = 2 ∧
      (∀ c ∈ (script.score () ()).calls,
        c.Confined .core (Registry.small fun _ _ _ => .bool true).registrations script.catalog) ∧
      ∃ registry', Registry.empty.run (Registry.smallSteps fun _ _ _ => .int 7) = .ok registry' ∧
        registry'.build .core = .ok Catalog.small := by
  obtain ⟨g, script, hg, hscript, hcalls⟩ :=
    exists_script Catalog.small .wrapped (fun script => (script.score () ()).calls.length == 2)
      (by decide +kernel)
  obtain ⟨hconfined, hexcluded⟩ := calls_confined (Registry.run_smallSteps fun _ _ _ => .bool true)
    (Registry.build_small _) hg (.compiled hscript) () ()
  obtain ⟨registry', hsteps', hbuild', _⟩ := hexcluded _ (Registry.smallSteps_sameBut _ _)
  exact ⟨g, script, hg, hscript, beq_iff_eq.1 hcalls, hconfined, registry', hsteps', hbuild'⟩

end Generator

end ScoreScript
