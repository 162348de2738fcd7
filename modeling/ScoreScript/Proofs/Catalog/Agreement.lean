import ScoreScript.Grammar.Declared
import ScoreScript.Proofs.Catalog.Steps
import ScoreScript.Proofs.Script.Generation

/-!
# Declared and bound predicates

A text of declarations can be made a grammar directly, or its predicates can be registered, bound to
implementations and made a catalog, which has a grammar too.  Both ways skip what is not enabled or
has no known kind, but they look for repeated names at different times: a registry before anything is
skipped, a grammar after.  Apart from that they agree.

* `Registration.Declares`, `Registry.Serves` — what registering and binding lead to, step by step
  (`Registry.attach_declared`, `Registry.run_bindings`);
* `Registry.entries_declared`, `Registry.build_declared` — the predicates of the catalog, or the
  first repeated name;
* `Generator.make_bound_iff_ofText` — when both ways lead to a grammar, and to which;
* `Generator.ofText_repeated` — a name that is repeated where it is not enabled tells them apart.
-/

namespace ScoreScript

variable {S A : Type}

theorem Declaration.enabledPredicates_cons (enabled : Capabilities) (d : Declaration)
    (ds : List Declaration) :
    enabledPredicates enabled (d :: ds) =
      (if d.capability.intersects enabled then d.predicate? else none).toList ++
        enabledPredicates enabled ds := by
  rw [enabledPredicates, List.filter_cons]
  cases d.capability.intersects enabled with
  | false => rfl
  | true =>
    rw [if_pos rfl, if_pos rfl, List.filterMap_cons]
    cases d.predicate? <;> rfl

/-! ### Registered declarations -/

/-- The registration is that of the declaration, with an implementation or without one. -/
structure Registration.Declares (d : Declaration) (r : Registration S A) : Prop where
  name_eq : r.name = d.name
  params_eq : r.params = d.params
  returns_eq : r.returns = some (.named d.returns)
  capability_eq : r.capability = d.capability

theorem Registration.declares_ofDeclaration (d : Declaration) :
    Declares d (ofDeclaration d : Registration S A) :=
  ⟨rfl, rfl, rfl, rfl⟩

/-- With an implementation, the registration of a declaration enters the catalog exactly when the
declaration is enabled and has a known kind. -/
theorem Registration.Declares.entry_eq {d : Declaration} {r : Registration S A} (h : Declares d r)
    {f : Implementation S A} (hf : r.implementation = some f) (enabled : Capabilities) :
    r.entry enabled = .ok
      ((if d.capability.intersects enabled then d.predicate? else none).map fun p => (p, f)) := by
  rw [entry, h.capability_eq, h.returns_eq, h.name_eq, h.params_eq, hf, Declaration.predicate?]
  cases d.capability.intersects enabled with
  | false => rfl
  | true =>
    simp only [if_true, ReturnType.resolve]
    cases Kind.ofTypeName? d.returns <;> rfl

namespace Registry

/-- The first registration under the name has an implementation. -/
def Serves (rs : List (Registration S A)) (name : String) : Prop :=
  ∃ r f, rs.find? (·.name == name) = some r ∧ r.implementation = some f

theorem serves_cons_self {r : Registration S A} {rest : List (Registration S A)} :
    Serves (r :: rest) r.name ↔ ∃ f, r.implementation = some f := by
  have hfirst : (r :: rest).find? (·.name == r.name) = some r :=
    List.find?_cons_of_pos (by simp)
  rw [Serves, hfirst]
  constructor
  · intro h
    obtain ⟨r', f, hr, hf⟩ := h
    exact ⟨f, Option.some.inj hr ▸ hf⟩
  · intro h
    obtain ⟨f, hf⟩ := h
    exact ⟨r, f, rfl, hf⟩

theorem serves_cons_of_ne {r : Registration S A} {rest : List (Registration S A)} {name : String}
    (h : r.name ≠ name) : Serves (r :: rest) name ↔ Serves rest name := by
  rw [Serves, List.find?_cons_of_neg (by simpa using h), Serves]

/-- An implementation for a declared name is attached: the registrations stay those of the
declarations, the name is served, and no name is served no longer. -/
theorem attach_declared {ds : List Declaration} {rs : List (Registration S A)}
    (h : List.Forall₂ Registration.Declares ds rs) {name : String}
    (hname : name ∈ ds.map Declaration.name) (f : Implementation S A) :
    ∃ rs', attach name f rs = some rs' ∧ List.Forall₂ Registration.Declares ds rs' ∧
      Serves rs' name ∧ ∀ other, Serves rs other → Serves rs' other := by
  induction h with
  | nil => exact absurd hname List.not_mem_nil
  | @cons d r ds rest hr hrest ih =>
    rw [attach]
    by_cases hfirst : r.name = name
    · subst hfirst
      have hserves : Serves ({ r with implementation := some f } :: rest) r.name :=
        serves_cons_self.2 ⟨f, rfl⟩
      refine ⟨_, if_pos rfl, .cons ⟨hr.name_eq, hr.params_eq, hr.returns_eq, hr.capability_eq⟩ hrest,
        hserves, fun other hother => ?_⟩
      by_cases hsame : r.name = other
      · exact hsame ▸ hserves
      · have hbehind := (serves_cons_of_ne hsame).1 hother
        exact (serves_cons_of_ne (r := { r with implementation := some f }) hsame).2 hbehind
    · have hbehind : name ∈ ds.map Declaration.name :=
        (List.mem_cons.1 hname).resolve_left fun heq => hfirst (hr.name_eq.trans heq.symm)
      obtain ⟨rest', hattach, hdeclares, hserves, hkeeps⟩ := ih hbehind
      refine ⟨r :: rest', by rw [if_neg hfirst, hattach]; rfl, .cons hr hdeclares,
        (serves_cons_of_ne hfirst).2 hserves, fun other hother => ?_⟩
      by_cases hsame : r.name = other
      · subst hsame
        exact serves_cons_self.2 (serves_cons_self.1 hother)
      · exact (serves_cons_of_ne hsame).2 (hkeeps other ((serves_cons_of_ne hsame).1 hother))

/-- Names with their implementations, as steps. -/
def bindSteps (bindings : List (String × Implementation S A)) : List (Step S A) :=
  bindings.map fun b => .bind b.1 b.2

/-- Binding declared names one after another leaves the declarations registered, serves each of the
names, and none of the bindings goes astray. -/
theorem run_bindings {ds : List Declaration} (bindings : List (String × Implementation S A))
    (hnames : ∀ b ∈ bindings, b.1 ∈ ds.map Declaration.name) {rs : List (Registration S A)}
    (h : List.Forall₂ Registration.Declares ds rs) :
    ∃ rs', Registry.run ⟨rs, []⟩ (bindSteps bindings) = .ok ⟨rs', []⟩ ∧
      List.Forall₂ Registration.Declares ds rs' ∧
      ∀ name, Serves rs name ∨ name ∈ bindings.map Prod.fst → Serves rs' name := by
  induction bindings generalizing rs with
  | nil => exact ⟨rs, rfl, h, fun name hname => hname.resolve_right List.not_mem_nil⟩
  | cons b rest ih =>
    obtain ⟨hfirst, hrest⟩ := List.forall_mem_cons.1 hnames
    obtain ⟨rs₁, hattach, hdeclares, hserves, hkeeps⟩ := attach_declared h hfirst b.2
    obtain ⟨rs', hrun, hdeclares', hall⟩ := ih hrest hdeclares
    have hbind : Registry.bind b.1 b.2 ⟨rs, []⟩ = ⟨rs₁, []⟩ := by
      simp only [Registry.bind, hattach]
    refine ⟨rs', ?_, hdeclares', fun name hname => hall name ?_⟩
    · rw [← hrun, bindSteps, List.map_cons, Registry.run, Step.apply, hbind]
      rfl
    · rcases hname with hname | hname
      · exact Or.inl (hkeeps name hname)
      · rcases List.mem_cons.1 hname with rfl | hname
        · exact Or.inl hserves
        · exact Or.inr hname

/-! ### Catalogs of declarations -/

/-- The predicates of the entries of registered declarations whose names are served: those that are
enabled, unless a name is repeated. -/
theorem entries_declared (enabled : Capabilities) (seen : List String) {ds : List Declaration}
    {rs : List (Registration S A)} (h : List.Forall₂ Registration.Declares ds rs)
    (hserves : ∀ d ∈ ds, d.name ∉ seen → Serves rs d.name) :
    (entries enabled seen rs).map (List.map Prod.fst) =
      match firstRepeated seen (ds.map Declaration.name) with
      | some name => .error (.duplicatePredicate name)
      | none => .ok (Declaration.enabledPredicates enabled ds) := by
  induction h generalizing seen with
  | nil => rfl
  | @cons d r ds rest hr hrest ih =>
    rw [entries, List.map_cons, firstRepeated, hr.name_eq]
    by_cases hseen : d.name ∈ seen
    · rw [if_pos hseen, if_pos hseen]
      rfl
    · rw [if_neg hseen, if_neg hseen]
      have hfirst := hserves d List.mem_cons_self hseen
      rw [← hr.name_eq, serves_cons_self] at hfirst
      obtain ⟨f, hf⟩ := hfirst
      -- behind the first registration only other names are asked for
      have hbehind : ∀ d' ∈ ds, d'.name ∉ d.name :: seen → Serves rest d'.name := by
        intro d' hd' hnot
        rw [List.mem_cons, not_or] at hnot
        obtain ⟨hne, hunseen⟩ := hnot
        refine (serves_cons_of_ne ?_).1 (hserves d' (List.mem_cons_of_mem _ hd') hunseen)
        rw [hr.name_eq]
        exact Ne.symm hne
      have hothers := ih (d.name :: seen) hbehind
      rw [hr.entry_eq hf enabled, Declaration.enabledPredicates_cons]
      cases hrepeated : firstRepeated (d.name :: seen) (ds.map Declaration.name) with
      | some name =>
        simp only [hrepeated] at hothers ⊢
        cases hes : entries enabled (d.name :: seen) rest with
        | ok es =>
          rw [hes] at hothers
          cases hothers
        | error e =>
          rw [hes] at hothers
          exact hothers
      | none =>
        simp only [hrepeated] at hothers ⊢
        obtain ⟨es, hes, hpredicates⟩ := Result.map_eq_ok_iff.1 hothers
        rw [hes, ← hpredicates]
        refine Result.map_eq_ok_iff.2 ⟨_, rfl, ?_⟩
        rw [List.map_append]
        cases (if d.capability.intersects enabled then d.predicate? else none) <;> rfl

/-- **Catalogs of declarations.**  When every declared name is served, the catalog has the enabled
predicates that the declarations describe; if a declared name is repeated, there is no catalog. -/
theorem build_declared {ds : List Declaration} {rs : List (Registration S A)}
    (h : List.Forall₂ Registration.Declares ds rs) (hserves : ∀ d ∈ ds, Serves rs d.name)
    (enabled : Capabilities) :
    ((ds.map Declaration.name).Nodup ∧ ∃ catalog, Registry.build enabled ⟨rs, []⟩ = .ok catalog ∧
      catalog.predicates = Declaration.enabledPredicates enabled ds) ∨
    (¬ (ds.map Declaration.name).Nodup ∧
      ∃ name, Registry.build enabled ⟨rs, []⟩ = .error (.duplicatePredicate name)) := by
  have hentries := entries_declared enabled [] h fun d hd _ => hserves d hd
  have hdistinct := firstRepeated_eq_none_iff [] (ds.map Declaration.name)
  rw [and_iff_left fun _ _ => List.not_mem_nil] at hdistinct
  cases hrepeated : firstRepeated [] (ds.map Declaration.name) with
  | none =>
    rw [hrepeated] at hentries
    obtain ⟨es, hes, hpredicates⟩ := Result.map_eq_ok_iff.1 hentries
    exact Or.inl ⟨hdistinct.1 hrepeated, ⟨es⟩, by rw [build, hes]; rfl, hpredicates⟩
  | some name =>
    rw [hrepeated] at hentries
    refine Or.inr ⟨fun hnodup => ?_, name, ?_⟩
    · rw [hdistinct.2 hnodup] at hrepeated
      cases hrepeated
    · rw [build]
      cases hes : entries enabled [] rs with
      | ok es =>
        rw [hes] at hentries
        cases hentries
      | error e =>
        rw [hes] at hentries
        exact congrArg _ (Except.error.inj hentries)

end Registry

/-! ### Grammars -/

theorem Registry.run_declared {text : String} {ds : List Declaration}
    (hparse : Declaration.parse text = .ok ds) {bindings : List (String × Implementation S A)}
    (hbindings : ∀ name, name ∈ bindings.map Prod.fst ↔ name ∈ ds.map Declaration.name) :
    ∃ rs, Registry.empty.run (.declare text :: bindSteps bindings) = .ok ⟨rs, []⟩ ∧
      List.Forall₂ Registration.Declares ds rs ∧ ∀ d ∈ ds, Serves rs d.name := by
  have hregistered : List.Forall₂ Registration.Declares ds
      (ds.map (Registration.ofDeclaration (S := S) (A := A))) :=
    List.forall₂_map_right_iff.2 (List.forall₂_same.2 fun d _ => Registration.declares_ofDeclaration d)
  obtain ⟨rs, hrun, hdeclares, hserves⟩ := run_bindings bindings
    (fun b hb => (hbindings b.1).1 (List.mem_map_of_mem hb)) hregistered
  have hdeclare : Step.apply Registry.empty (.declare text : Step S A) =
      .ok ⟨ds.map Registration.ofDeclaration, []⟩ := by
    rw [Step.apply, Registry.declare, hparse]
    rfl
  refine ⟨rs, ?_, hdeclares, fun d hd => hserves d.name (.inr ?_)⟩
  · rw [Registry.run, hdeclare]
    exact hrun
  · exact (hbindings d.name).2 (List.mem_map_of_mem hd)

namespace Generator

/-- **Declared and bound.**  Let a text be read as declarations and let implementations be bound to
all declared names and to no others.  A catalog of the enabled ones with a generator comes about exactly
when the text has a grammar and no declared name is repeated.  The generator then has the grammar of the
text: the same predicates in the same order and the same alternatives of every rule.  If a declared name
is repeated, enabled or not and with a known kind or not, there is no catalog for that reason. -/
theorem make_bound_iff_ofText {text : String} {ds : List Declaration}
    (hparse : Declaration.parse text = .ok ds) {bindings : List (String × Implementation S A)}
    (hbindings : ∀ name, name ∈ bindings.map Prod.fst ↔ name ∈ ds.map Declaration.name)
    (enabled : Capabilities) (config : Config) :
    ∃ registry, Registry.empty.run (.declare text :: Registry.bindSteps bindings) = .ok registry ∧
      ((∃ catalog g, registry.build enabled = .ok catalog ∧ make catalog config = .ok g) ↔
        (ds.map Declaration.name).Nodup ∧ ∃ grammar, Grammar.ofText text enabled config = .ok grammar) ∧
      (∀ catalog g, registry.build enabled = .ok catalog → make catalog config = .ok g →
        Grammar.ofText text enabled config = .ok g.grammar) ∧
      (¬ (ds.map Declaration.name).Nodup →
        ∃ name, registry.build enabled = .error (.duplicatePredicate name)) := by
  obtain ⟨rs, hrun, hdeclares, hserves⟩ := Registry.run_declared hparse hbindings
  refine ⟨⟨rs, []⟩, hrun, ?_⟩
  rcases Registry.build_declared hdeclares hserves enabled with
    ⟨hdistinct, catalog, hbuilt, hpredicates⟩ | ⟨hrepeats, name, hfails⟩
  · -- the grammar of the text is built of the same predicates as that of the catalog
    have htext : Grammar.ofText text enabled config =
        ((make catalog config).map Generator.grammar).mapError .grammar := by
      rw [Grammar.ofText_of_parse hparse, ← hpredicates, make]
      cases Grammar.build catalog.predicates config <;> rfl
    have hgrammar : ∀ catalog' g, Registry.build enabled ⟨rs, []⟩ = .ok catalog' →
        make catalog' config = .ok g → Grammar.ofText text enabled config = .ok g.grammar := by
      intro catalog' g hbuilt' hmake
      obtain rfl := Except.ok.inj (hbuilt.symm.trans hbuilt')
      rw [htext, hmake]
      rfl
    refine ⟨⟨?_, ?_⟩, hgrammar, fun hnot => absurd hdistinct hnot⟩
    · intro hbound
      obtain ⟨catalog', g, hbuilt', hmake⟩ := hbound
      exact ⟨hdistinct, g.grammar, hgrammar catalog' g hbuilt' hmake⟩
    · intro hdeclared
      obtain ⟨_, grammar, hgrown⟩ := hdeclared
      rw [htext, Result.mapError_eq_ok_iff] at hgrown
      obtain ⟨g, hmake, _⟩ := Result.map_eq_ok_iff.1 hgrown
      exact ⟨catalog, g, hbuilt, hmake⟩
  · have hnone : ∀ catalog, Registry.build enabled ⟨rs, []⟩ ≠ .ok catalog := by
      intro catalog hbuilt
      rw [hfails] at hbuilt
      cases hbuilt
    refine ⟨⟨fun hbound => ?_, fun hdeclared => absurd hdeclared.1 hrepeats⟩,
      fun catalog _ hbuilt => absurd hbuilt (hnone catalog), fun _ => ⟨name, hfails⟩⟩
    obtain ⟨catalog, _, hbuilt, _⟩ := hbound
    exact absurd hbuilt (hnone catalog)

/-- A text with a predicate for a truth value, one that is not basic and one without a known kind. -/
def mixedText : String :=
  "predicate stab(action) -> bool\npredicate peek(state) -> bool [cheat]\npredicate mood(state) -> Mood"

/-- The declarations of the mixed text. -/
def mixedDeclarations : List Declaration :=
  [⟨"stab", [.action], "bool", .core⟩, ⟨"peek", [.state], "bool", ⟨16⟩⟩,
    ⟨"mood", [.state], "Mood", .core⟩]

/-- Implementations for the mixed text, out of order and one of them given twice. -/
def mixedBindings : List (String × Implementation Unit Unit) :=
  [("mood", fun _ _ _ => .bool false), ("stab", fun _ _ _ => .bool false),
    ("peek", fun _ _ _ => .bool true), ("stab", fun _ _ _ => .bool true)]

/-- With the basic capabilities the mixed text has a grammar of one predicate, and so has the
generator of its catalog. -/
theorem make_bound_iff_ofText_mixed :
    ∃ registry catalog g,
      Registry.empty.run (.declare mixedText :: Registry.bindSteps mixedBindings) = .ok registry ∧
      registry.build ⟨41⟩ = .ok catalog ∧ make catalog .default = .ok g ∧
      Grammar.ofText mixedText ⟨41⟩ .default = .ok g.grammar ∧
      g.grammar.predicates = [⟨"stab", [.action], .bool⟩] := by
  have hparse : Declaration.parse mixedText = .ok mixedDeclarations := by decide +kernel
  have hbindings : ∀ name, name ∈ mixedBindings.map Prod.fst ↔
      name ∈ mixedDeclarations.map Declaration.name := by
    intro name
    simp only [mixedBindings, mixedDeclarations, List.map_cons, List.map_nil, List.mem_cons,
      List.not_mem_nil, or_false]
    tauto
  have hgrammar : (Grammar.ofText mixedText ⟨41⟩ .default).toOption.any
      (·.predicates == [⟨"stab", [.action], .bool⟩]) = true := by decide +kernel
  obtain ⟨grammar, htext, hpredicates⟩ := Result.exists_of_any hgrammar
  obtain ⟨registry, hrun, hiff, hsame, _⟩ := make_bound_iff_ofText hparse hbindings ⟨41⟩ .default
  obtain ⟨catalog, g, hbuild, hmake⟩ := hiff.2 ⟨by decide, grammar, htext⟩
  have hbuilt := hsame catalog g hbuild hmake
  obtain rfl : grammar = g.grammar := Except.ok.inj (htext.symm.trans hbuilt)
  exact ⟨registry, catalog, g, hrun, hbuild, hmake, htext, beq_iff_eq.1 hpredicates⟩

/-- A text that declares a name a second time, for a capability that is not basic. -/
def repeatedText : String :=
  "predicate stab(action) -> bool\npredicate stab(state) -> bool [cheat]"

/-- With the basic capabilities the text with the repeated name has a grammar, but its registrations
make no catalog. -/
theorem ofText_repeated :
    ∃ grammar registry, Grammar.ofText repeatedText ⟨41⟩ .default = .ok grammar ∧
      Registry.empty.run [.declare repeatedText,
        .bind "stab" fun (_ _ : Unit) _ => .bool true] = .ok registry ∧
      registry.build ⟨41⟩ = .error (.duplicatePredicate "stab") := by
  have hgrammar : (Grammar.ofText repeatedText ⟨41⟩ .default).toOption.any (fun _ => true) = true := by
    decide +kernel
  have hparse : Declaration.parse repeatedText =
      .ok [⟨"stab", [.action], "bool", .core⟩, ⟨"stab", [.state], "bool", ⟨16⟩⟩] := by
    decide +kernel
  obtain ⟨grammar, htext, _⟩ := Result.exists_of_any hgrammar
  refine ⟨grammar, ⟨[⟨"stab", [.action], some (.named "bool"), .core, some fun _ _ _ => .bool true⟩,
    ⟨"stab", [.state], some (.named "bool"), ⟨16⟩, none⟩], []⟩, htext, ?_, rfl⟩
  simp only [Registry.run, Registry.Step.apply, Registry.declare, hparse]
  rfl

end Generator

end ScoreScript
