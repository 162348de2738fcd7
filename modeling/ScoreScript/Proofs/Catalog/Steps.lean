import ScoreScript.Catalog.Registry
import ScoreScript.Proofs.Result

/-!
# Registries step by step

A registry comes about step by step, and a catalog is built of it.  The entries of the catalog are
supplied by registrations that are enabled and whose result has a known kind.  What else is
registered only lends its name: whatever implementations it is given, the same catalog is built.

* `Registry.Step`, `Registry.run` — the steps and the registry after them;
* `Registration.Supplies`, `Registry.supplies_of_build` — where the entries of a catalog come from;
* `Registration.SameBut`, `Registry.SameBut` — agreement but for implementations under some names;
* `Registry.Step.apply_sameBut`, `Registry.run_sameBut` — one step and all steps keep it;
* `Registry.build_congr` — implementations of excluded registrations do not matter.
-/

namespace ScoreScript

variable {S A : Type}

/-! ### Steps -/

namespace Registry

/-- One step in making a registry. -/
inductive Step (S A : Type) where
  | register (r : Registration S A)
  | declare (text : String)
  | bind (name : String) (f : Implementation S A)

/-- The registry after one step. -/
def Step.apply (g : Registry S A) : Step S A → Except ParseError (Registry S A)
  | register r => .ok (g.register r)
  | declare text => g.declare text
  | bind name f => .ok (g.bind name f)

/-- The registry after steps in order.  A text that cannot be read puts an end to them. -/
def run (g : Registry S A) : List (Step S A) → Except ParseError (Registry S A)
  | [] => .ok g
  | step :: rest => do
    let g ← step.apply g
    g.run rest

end Registry

/-! ### Where entries come from -/

namespace Registration

/-- The kind of the result, when a return type is given and names one. -/
def kind? (r : Registration S A) : Option Kind :=
  r.returns.bind ReturnType.resolve

/-- The registration is enabled and the kind of its result is known. -/
def Enters (enabled : Capabilities) (r : Registration S A) : Prop :=
  r.capability.intersects enabled = true ∧ ∃ kind, r.kind? = some kind

/-- The registration is enabled, declares the predicate, and the implementation is attached to it. -/
structure Supplies (enabled : Capabilities) (r : Registration S A) (p : Predicate)
    (f : Implementation S A) : Prop where
  intersects : r.capability.intersects enabled = true
  name_eq : r.name = p.name
  params_eq : r.params = p.params
  kind_eq : r.kind? = some p.returns
  implementation_eq : r.implementation = some f

theorem supplies_of_entry {enabled : Capabilities} {r : Registration S A} {p : Predicate}
    {f : Implementation S A} (h : r.entry enabled = .ok (some (p, f))) : r.Supplies enabled p f := by
  unfold entry at h
  split at h
  · rename_i hintersects
    cases hreturns : r.returns with
    | none => simp [hreturns] at h
    | some returns =>
      simp only [hreturns] at h
      split at h
      · cases h
      · cases h
      · rename_i kind implementation hkind himplementation
        simp only [Except.ok.injEq, Option.some.injEq, Prod.mk.injEq] at h
        obtain ⟨rfl, rfl⟩ := h
        exact ⟨hintersects, rfl, rfl, by rw [kind?, hreturns]; exact hkind, himplementation⟩
  · cases h

end Registration

namespace Registry

theorem supplies_of_entries {enabled : Capabilities} {seen : List String}
    {rs : List (Registration S A)} {es : List (Predicate × Implementation S A)}
    (h : entries enabled seen rs = .ok es) {p : Predicate} {f : Implementation S A}
    (hmem : (p, f) ∈ es) : ∃ r ∈ rs, r.Supplies enabled p f := by
  induction rs generalizing seen es with
  | nil =>
    rw [entries] at h
    rw [← Except.ok.inj h] at hmem
    exact absurd hmem List.not_mem_nil
  | cons r rest ih =>
    rw [entries] at h
    split at h
    · cases h
    · obtain ⟨first, hfirst, h⟩ := Result.bind_eq_ok_iff.1 h
      obtain ⟨others, hothers, h⟩ := Result.bind_eq_ok_iff.1 h
      rw [← Result.pure_eq_ok_iff.1 h, List.mem_append, Option.mem_toList] at hmem
      rcases hmem with hmem | hmem
      · rw [hmem] at hfirst
        exact ⟨r, List.mem_cons_self, Registration.supplies_of_entry hfirst⟩
      · obtain ⟨r', hr', hsupplies⟩ := ih hothers hmem
        exact ⟨r', List.mem_cons_of_mem _ hr', hsupplies⟩

/-- Every entry of a catalog is supplied by a registration. -/
theorem supplies_of_build {enabled : Capabilities} {g : Registry S A} {catalog : Catalog S A}
    (h : g.build enabled = .ok catalog) {p : Predicate} {f : Implementation S A}
    (hmem : (p, f) ∈ catalog.entries) : ∃ r ∈ g.registrations, r.Supplies enabled p f := by
  unfold build at h
  split at h
  · cases h
  · obtain ⟨es, hes, rfl⟩ := Result.map_eq_ok_iff.1 h
    exact supplies_of_entries hes hmem

end Registry

/-! ### Other implementations -/

variable {free : String → Prop}

/-- The registrations agree, but for the implementation when the name is free. -/
structure Registration.SameBut (free : String → Prop) (r r' : Registration S A) : Prop where
  name_eq : r'.name = r.name
  params_eq : r'.params = r.params
  returns_eq : r'.returns = r.returns
  capability_eq : r'.capability = r.capability
  implementation_eq : ¬ free r.name → r'.implementation = r.implementation

theorem Registration.SameBut.refl (r : Registration S A) : r.SameBut free r :=
  ⟨rfl, rfl, rfl, rfl, fun _ => rfl⟩

namespace Registry

/-- The registries agree, but for the implementations of registrations with free names. -/
structure SameBut (free : String → Prop) (g g' : Registry S A) : Prop where
  registrations : List.Forall₂ (Registration.SameBut free) g.registrations g'.registrations
  stray_eq : g'.stray = g.stray

theorem SameBut.refl (g : Registry S A) : g.SameBut free g :=
  ⟨List.forall₂_same.2 fun r _ => .refl r, rfl⟩

/-- The steps agree, but for the implementations that they give to free names. -/
inductive Step.SameBut (free : String → Prop) : Step S A → Step S A → Prop
  | register {r r' : Registration S A} : r.SameBut free r' → SameBut free (.register r) (.register r')
  | declare (text : String) : SameBut free (.declare text) (.declare text)
  | bind {name : String} {f f' : Implementation S A} :
    (¬ free name → f' = f) → SameBut free (.bind name f) (.bind name f')

theorem attach_sameBut {name : String} {f f' : Implementation S A} (hf : ¬ free name → f' = f)
    {rs rs' : List (Registration S A)} (h : List.Forall₂ (Registration.SameBut free) rs rs') :
    Option.Rel (List.Forall₂ (Registration.SameBut free)) (attach name f rs) (attach name f' rs') := by
  induction h with
  | nil => exact .none
  | @cons r r' rest rest' hr hrest ih =>
    rw [attach, attach]
    by_cases hname : r.name = name
    · rw [if_pos hname, if_pos (hr.name_eq.trans hname)]
      refine .some (.cons ⟨hr.name_eq, hr.params_eq, hr.returns_eq, hr.capability_eq, ?_⟩ hrest)
      exact fun hfree => congrArg some (hf (hname ▸ hfree))
    · rw [if_neg hname, if_neg (hr.name_eq ▸ hname)]
      generalize attach name f rest = attached, attach name f' rest' = attached' at ih
      cases ih with
      | none => exact .none
      | some hothers => exact .some (.cons hr hothers)

theorem SameBut.bind {g g' : Registry S A} (h : g.SameBut free g') {name : String}
    {f f' : Implementation S A} (hf : ¬ free name → f' = f) :
    (g.bind name f).SameBut free (g'.bind name f') := by
  have hattach := attach_sameBut hf h.registrations
  unfold Registry.bind
  generalize attach name f g.registrations = attached,
    attach name f' g'.registrations = attached' at hattach
  cases hattach with
  | none => exact ⟨h.registrations, congrArg (· ++ [name]) h.stray_eq⟩
  | some hothers => exact ⟨hothers, h.stray_eq⟩

/-- One step keeps the agreement. -/
theorem Step.apply_sameBut {step step' : Step S A} (hstep : step.SameBut free step')
    {g g' k : Registry S A} (hg : g.SameBut free g') (h : step.apply g = .ok k) :
    ∃ k', step'.apply g' = .ok k' ∧ k.SameBut free k' := by
  cases hstep with
  | register hr =>
    obtain rfl := Except.ok.inj h
    exact ⟨_, rfl, List.rel_append hg.registrations (.cons hr .nil), hg.stray_eq⟩
  | declare text =>
    obtain ⟨ds, hds, rfl⟩ := Result.map_eq_ok_iff.1 h
    refine ⟨_, Result.map_eq_ok_iff.2 ⟨ds, hds, rfl⟩, List.rel_append hg.registrations ?_, hg.stray_eq⟩
    exact List.forall₂_same.2 fun r _ => .refl r
  | bind hf =>
    obtain rfl := Except.ok.inj h
    exact ⟨_, rfl, hg.bind hf⟩

/-- **Steps keep the agreement.**  Steps that agree but for the implementations under free names make
registries that do so too. -/
theorem run_sameBut {steps steps' : List (Step S A)}
    (hsteps : List.Forall₂ (Step.SameBut free) steps steps') {g g' k : Registry S A}
    (hg : g.SameBut free g') (h : g.run steps = .ok k) :
    ∃ k', g'.run steps' = .ok k' ∧ k.SameBut free k' := by
  induction hsteps generalizing g g' with
  | nil =>
    obtain rfl := Except.ok.inj h
    exact ⟨g', rfl, hg⟩
  | @cons step step' rest rest' hstep _ ih =>
    obtain ⟨mid, hmid, h⟩ := Result.bind_eq_ok_iff.1 h
    obtain ⟨mid', hmid', hsame⟩ := Step.apply_sameBut hstep hg hmid
    obtain ⟨k', hk', hsame'⟩ := ih hsame h
    exact ⟨k', Result.bind_eq_ok_iff.2 ⟨mid', hmid', hk'⟩, hsame'⟩

/-! ### What is built -/

/-- No registration with the name enters a catalog. -/
def Excludes (enabled : Capabilities) (g : Registry S A) (name : String) : Prop :=
  ∀ r ∈ g.registrations, r.name = name → ¬ r.Enters enabled

end Registry

theorem Registration.SameBut.entry_eq {enabled : Capabilities} {r r' : Registration S A}
    (h : r.SameBut free r') (hfree : free r.name → ¬ r.Enters enabled) :
    r'.entry enabled = r.entry enabled := by
  unfold entry
  rw [h.capability_eq, h.returns_eq, h.name_eq, h.params_eq]
  by_cases hname : free r.name
  · -- the implementation may be another one, but it is not looked at
    have hout := hfree hname
    split
    · rename_i hintersects
      cases hreturns : r.returns with
      | none => rfl
      | some returns =>
        have hunknown : returns.resolve = none := by
          refine Option.eq_none_iff_forall_ne_some.2 fun kind hkind => hout ⟨hintersects, kind, ?_⟩
          rw [kind?, hreturns]
          exact hkind
        simp only [hunknown]
    · rfl
  · rw [h.implementation_eq hname]

namespace Registry

theorem entries_congr {enabled : Capabilities} {seen : List String}
    {rs rs' : List (Registration S A)} (h : List.Forall₂ (Registration.SameBut free) rs rs')
    (hfree : ∀ r ∈ rs, free r.name → ¬ r.Enters enabled) :
    entries enabled seen rs' = entries enabled seen rs := by
  induction h generalizing seen with
  | nil => rfl
  | @cons r r' rest rest' hr _ ih =>
    obtain ⟨hfirst, hothers⟩ := List.forall_mem_cons.1 hfree
    rw [entries, entries, hr.name_eq, hr.entry_eq hfirst, ih hothers]

/-- **Excluded implementations do not matter.**  Registries that agree but for the implementations of
registrations that enter no catalog make the same catalog, or the same error. -/
theorem build_congr {enabled : Capabilities} {g g' : Registry S A}
    (h : g.SameBut (g.Excludes enabled) g') : g'.build enabled = g.build enabled := by
  rw [build, build, h.stray_eq, entries_congr h.registrations]
  exact fun r hr hexcluded => hexcluded r hr rfl

end Registry

end ScoreScript
