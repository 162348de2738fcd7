import ScoreScript.Catalog.Columns
import ScoreScript.Proofs.Catalog.Steps

/-!
# What a catalog is built of

A registry changes while it is made: a binding replaces the implementation of a registration.  What is
built of it can be told from the steps alone.  A binding is stray if no step before it registers its
name.  If no binding is stray, each registration has in the end the implementation that the last binding
of its name gives it, or else its own.  The registrations that are enabled and have a known kind, with
these implementations, make the catalog; the first one at fault prevents it.

* `Nowhere`, `FirstAt` — a property of the members of a list and of those before them;
* `Registry.registered`, `Registry.attached` — what steps register, and the implementations they leave;
* `Registry.run_strays`, `Registry.run_registrations` — the registry after steps;
* `Registry.Fault`, `Registry.entries_equip` — what is wrong with a registration, and what becomes of
  all of them;
* `Registry.build_of_steps` — when there is a catalog, what is in it, and why there is none.
-/

namespace ScoreScript

variable {S A : Type}

/-! ### First places -/

section FirstPlaces

variable {α : Type} {P : List α → α → Prop}

/-- No member of the list has the property, together with those before it. -/
def Nowhere (P : List α → α → Prop) (xs : List α) : Prop :=
  ∀ before x after, xs = before ++ x :: after → ¬ P before x

/-- The list starts with these members and the next one, which is the first to have the property. -/
def FirstAt (P : List α → α → Prop) (xs before : List α) (x : α) : Prop :=
  (∃ after, xs = before ++ x :: after) ∧ P before x ∧ Nowhere P before

theorem Nowhere.nil : Nowhere P [] := by
  intro before x after h
  exact absurd h.symm (by simp)

theorem nowhere_cons {x : α} {xs : List α} :
    Nowhere P (x :: xs) ↔ ¬ P [] x ∧ Nowhere (fun before => P (x :: before)) xs := by
  constructor
  · intro h
    refine ⟨h [] x xs rfl, ?_⟩
    rintro before y after rfl
    exact h (x :: before) y after rfl
  · rintro ⟨hfirst, hrest⟩ before y after h
    cases before with
    | nil =>
      obtain ⟨rfl, rfl⟩ := List.cons.inj h
      exact hfirst
    | cons x' before =>
      obtain ⟨rfl, rfl⟩ := List.cons.inj h
      exact hrest before y after rfl

theorem FirstAt.head {x : α} {xs : List α} (h : P [] x) : FirstAt P (x :: xs) [] x :=
  ⟨⟨xs, rfl⟩, h, Nowhere.nil⟩

theorem FirstAt.tail {x y : α} {xs before : List α} (hx : ¬ P [] x)
    (h : FirstAt (fun before => P (x :: before)) xs before y) :
    FirstAt P (x :: xs) (x :: before) y := by
  obtain ⟨⟨after, rfl⟩, hy, hbefore⟩ := h
  exact ⟨⟨after, rfl⟩, hy, nowhere_cons.2 ⟨hx, hbefore⟩⟩

theorem FirstAt.not_nowhere {x : α} {xs before : List α} (h : FirstAt P xs before x) :
    ¬ Nowhere P xs := by
  obtain ⟨⟨after, hxs⟩, hx, _⟩ := h
  exact fun hnone => hnone before x after hxs hx

/-- There is only one first place. -/
theorem FirstAt.unique {x y : α} {xs before before' : List α} (h : FirstAt P xs before x)
    (h' : FirstAt P xs before' y) : x = y ∧ before = before' := by
  obtain ⟨⟨after, rfl⟩, hx, hbefore⟩ := h
  obtain ⟨⟨after', hxs⟩, hy, hbefore'⟩ := h'
  rcases List.append_eq_append_iff.1 hxs with ⟨more, rfl, hmore⟩ | ⟨more, rfl, hmore⟩
  · cases more with
    | nil => exact ⟨(List.cons.inj hmore).1, (List.append_nil before).symm⟩
    | cons z more =>
      obtain ⟨rfl, _⟩ := List.cons.inj hmore
      exact absurd hx (hbefore' before x more rfl)
  · cases more with
    | nil => exact ⟨(List.cons.inj hmore).1.symm, List.append_nil before'⟩
    | cons z more =>
      obtain ⟨rfl, _⟩ := List.cons.inj hmore
      exact absurd hy (hbefore before' y more rfl)

end FirstPlaces

namespace Registry

/-! ### What steps register and bind -/

/-- The registrations that a step adds. -/
def Step.registers : Step S A → List (Registration S A)
  | register r => [r]
  | declare text =>
    match Declaration.parse text with
    | .ok ds => ds.map .ofDeclaration
    | .error _ => []
  | bind _ _ => []

/-- The implementation that a step gives to a name. -/
def Step.gives? (name : String) : Step S A → Option (Implementation S A)
  | bind bound f => if bound = name then some f else none
  | _ => none

/-- All that steps register, in order. -/
def registered (steps : List (Step S A)) : List (Registration S A) :=
  steps.flatMap Step.registers

/-- The names of registrations. -/
def names (rs : List (Registration S A)) : List String :=
  rs.map (·.name)

/-- The implementation that steps leave to a registration: the last one that is given to its name, or
else its own. -/
def attached (steps : List (Step S A)) (r : Registration S A) : Option (Implementation S A) :=
  (steps.filterMap (Step.gives? r.name)).getLast?.or r.implementation

/-- The step binds a name that is neither among the given ones nor registered before. -/
def StrayFrom (known : List String) (before : List (Step S A)) (step : Step S A) : Prop :=
  ∃ name f, step = .bind name f ∧ name ∉ known ++ names (registered before)

/-- The step binds a name that is not registered before. -/
def IsStray (before : List (Step S A)) (step : Step S A) : Prop :=
  ∃ name f, step = .bind name f ∧ name ∉ names (registered before)

/-- The registration with the implementation that steps leave to it. -/
def equipped (steps : List (Step S A)) (r : Registration S A) : Registration S A :=
  { r with implementation := attached steps r }

/-- Registrations with the implementations that steps leave to them.  Those whose names were seen before
keep their own. -/
def equip (steps : List (Step S A)) (seen : List String) :
    List (Registration S A) → List (Registration S A)
  | [] => []
  | r :: rest =>
    (if r.name ∈ seen then r else equipped steps r) :: equip steps (r.name :: seen) rest

/-! ### The registry after steps -/

/-- A step that is no binding adds what it registers. -/
theorem Step.apply_eq_ok {step : Step S A} {g g' : Registry S A} (h : step.apply g = .ok g') :
    (g' = ⟨g.registrations ++ step.registers, g.stray⟩ ∧ ∀ name, step.gives? name = none) ∨
      ∃ name f, step = .bind name f ∧ g' = g.bind name f := by
  cases step with
  | register r =>
    obtain rfl := Except.ok.inj h
    exact Or.inl ⟨rfl, fun _ => rfl⟩
  | declare text =>
    obtain ⟨ds, hds, rfl⟩ := Result.map_eq_ok_iff.1 h
    refine Or.inl ⟨?_, fun _ => rfl⟩
    rw [registers, hds]
  | bind name f =>
    obtain rfl := Except.ok.inj h
    exact Or.inr ⟨name, f, rfl, rfl⟩

theorem registered_cons (step : Step S A) (rest : List (Step S A)) :
    registered (step :: rest) = step.registers ++ registered rest :=
  List.flatMap_cons

theorem names_append (rs rs' : List (Registration S A)) : names (rs ++ rs') = names rs ++ names rs' :=
  List.map_append

/-- What a first step registers is known to the steps behind it. -/
theorem strayFrom_cons (known : List String) (step : Step S A) (before : List (Step S A)) :
    StrayFrom known (step :: before) = StrayFrom (known ++ names step.registers) before := by
  funext later
  simp only [StrayFrom, registered_cons, names_append, List.append_assoc]

theorem attach_eq_none_iff {name : String} {f : Implementation S A} {rs : List (Registration S A)} :
    attach name f rs = none ↔ name ∉ names rs := by
  induction rs with
  | nil => simp [attach, names]
  | cons r rest ih =>
    rw [attach, names, List.map_cons, List.mem_cons, not_or]
    by_cases hname : r.name = name
    · simp [hname]
    · rw [if_neg hname, Option.map_eq_none_iff, ih, names]
      exact ⟨fun hrest => ⟨Ne.symm hname, hrest⟩, And.right⟩

/-- A binding of a known name changes no names and goes nowhere else. -/
theorem bind_of_mem {name : String} {f : Implementation S A} {g : Registry S A}
    (h : name ∈ names g.registrations) :
    ∃ rs, attach name f g.registrations = some rs ∧ g.bind name f = ⟨rs, g.stray⟩ ∧
      names rs = names g.registrations := by
  cases hattach : attach name f g.registrations with
  | none => exact absurd h (attach_eq_none_iff.1 hattach)
  | some rs => exact ⟨rs, rfl, by rw [bind, hattach], attach_names hattach⟩

theorem bind_of_not_mem {name : String} {f : Implementation S A} {g : Registry S A}
    (h : name ∉ names g.registrations) : g.bind name f = ⟨g.registrations, g.stray ++ [name]⟩ := by
  rw [bind, attach_eq_none_iff.2 h]

/-- Steps note the names of stray bindings, the first one first. -/
theorem run_strays {steps : List (Step S A)} {g g' : Registry S A} (h : g.run steps = .ok g') :
    (Nowhere (StrayFrom (names g.registrations)) steps ∧ g'.stray = g.stray) ∨
      ∃ before name f more, FirstAt (StrayFrom (names g.registrations)) steps before (.bind name f) ∧
        g'.stray = g.stray ++ name :: more := by
  induction steps generalizing g with
  | nil =>
    obtain rfl := Except.ok.inj h
    exact Or.inl ⟨Nowhere.nil, rfl⟩
  | cons step rest ih =>
    obtain ⟨mid, hmid, hrest⟩ := Result.bind_eq_ok_iff.1 h
    have hstrays := ih hrest
    -- the step is not stray, and those behind it know what it registers
    have hgoes : ¬ StrayFrom (names g.registrations) [] step → mid.stray = g.stray →
        names mid.registrations = names g.registrations ++ names step.registers →
        (Nowhere (StrayFrom (names g.registrations)) (step :: rest) ∧ g'.stray = g.stray) ∨
          ∃ before name f more,
            FirstAt (StrayFrom (names g.registrations)) (step :: rest) before (.bind name f) ∧
              g'.stray = g.stray ++ name :: more := by
      intro hknown hstray hnames
      rw [hstray, hnames, ← funext (strayFrom_cons (names g.registrations) step)] at hstrays
      rcases hstrays with ⟨hnone, hsame⟩ | ⟨before, name, f, more, hfirst, hmore⟩
      · exact Or.inl ⟨nowhere_cons.2 ⟨hknown, hnone⟩, hsame⟩
      · exact Or.inr ⟨step :: before, name, f, more, hfirst.tail hknown, hmore⟩
    rcases Step.apply_eq_ok hmid with ⟨rfl, hgives⟩ | ⟨name, f, rfl, rfl⟩
    · refine hgoes ?_ rfl (names_append _ _)
      rintro ⟨name, f, rfl, _⟩
      simp [Step.gives?] at hgives
    · by_cases hname : name ∈ names g.registrations
      · obtain ⟨rs, _, hbind, hnames⟩ := bind_of_mem (f := f) hname
        rw [hbind] at hgoes
        refine hgoes ?_ rfl (hnames.trans (List.append_nil _).symm)
        rintro ⟨name', f', hstep, hnot⟩
        cases hstep
        exact hnot (List.mem_append_left _ hname)
      · have hfirst : StrayFrom (names g.registrations) [] (.bind name f) :=
          ⟨name, f, rfl, by simpa [registered, names] using hname⟩
        rw [bind_of_not_mem hname] at hstrays
        rcases hstrays with ⟨_, hsame⟩ | ⟨_, name', _, more, _, hmore⟩
        · exact Or.inr ⟨[], name, f, [], .head hfirst, hsame⟩
        · refine Or.inr ⟨[], name, f, name' :: more, .head hfirst, ?_⟩
          rw [hmore, List.append_assoc, List.singleton_append]

/-- No steps leave everything as it is. -/
theorem equip_nil (seen : List String) (rs : List (Registration S A)) : equip [] seen rs = rs := by
  induction rs generalizing seen with
  | nil => rfl
  | cons r rest ih =>
    rw [equip, ih]
    exact congrArg (· :: rest) (ite_self r)

/-- A first step that gives no unseen name an implementation does not matter. -/
theorem equip_cons {step : Step S A} {rest : List (Step S A)} {seen : List String}
    (h : ∀ name, name ∉ seen → step.gives? name = none) (rs : List (Registration S A)) :
    equip (step :: rest) seen rs = equip rest seen rs := by
  induction rs generalizing seen with
  | nil => rfl
  | cons r rs ih =>
    have hrest : equip (step :: rest) (r.name :: seen) rs = equip rest (r.name :: seen) rs :=
      ih fun name hname => h name fun hseen => hname (List.mem_cons_of_mem _ hseen)
    rw [equip, equip, hrest]
    by_cases hseen : r.name ∈ seen
    · rw [if_pos hseen, if_pos hseen]
    · rw [if_neg hseen, if_neg hseen, equipped, equipped, attached, attached,
        List.filterMap_cons_none (h r.name hseen)]

/-- What is attached at once is what a binding leaves if no later one replaces it. -/
theorem equipped_bind (rest : List (Step S A)) (r : Registration S A) (f : Implementation S A) :
    equipped rest { r with implementation := some f } = equipped (.bind r.name f :: rest) r := by
  have hgives : Step.gives? r.name (.bind r.name f) = some f := if_pos rfl
  rw [equipped, equipped, attached, attached, List.filterMap_cons_some hgives, List.getLast?_cons]
  cases (rest.filterMap (Step.gives? r.name)).getLast? <;> rfl

/-- Attaching an implementation first and equipping then is equipping with the binding. -/
theorem equip_attach {name : String} {f : Implementation S A} {rest : List (Step S A)}
    {rs rs' : List (Registration S A)} (h : attach name f rs = some rs') {seen : List String}
    (hunseen : name ∉ seen) (more : List (Registration S A)) :
    equip rest seen (rs' ++ more) = equip (.bind name f :: rest) seen (rs ++ more) := by
  induction rs generalizing rs' seen with
  | nil => cases h
  | cons r rs ih =>
    rw [attach] at h
    by_cases hname : r.name = name
    · subst hname
      rw [if_pos rfl] at h
      obtain rfl := Option.some.inj h
      have hbehind : ∀ other, other ∉ r.name :: seen → Step.gives? other (.bind r.name f) = none := by
        intro other hother
        refine if_neg fun heq => hother ?_
        rw [heq]
        exact List.mem_cons_self
      rw [List.cons_append, List.cons_append, equip, equip, if_neg hunseen, if_neg hunseen,
        equipped_bind, equip_cons hbehind]
    · rw [if_neg hname] at h
      obtain ⟨rs'', hattach, rfl⟩ := Option.map_eq_some_iff.1 h
      have hgives : Step.gives? r.name (.bind name f) = none := if_neg (Ne.symm hname)
      have hbehind : name ∉ r.name :: seen := by
        rw [List.mem_cons, not_or]
        exact ⟨Ne.symm hname, hunseen⟩
      rw [List.cons_append, List.cons_append, equip, equip, ih hattach hbehind, equipped, equipped,
        attached, attached, List.filterMap_cons_none hgives]

/-- If no binding is stray, what is registered has in the end the implementations that the steps leave
to it. -/
theorem run_registrations {steps : List (Step S A)} {g g' : Registry S A}
    (h : g.run steps = .ok g') (hnone : Nowhere (StrayFrom (names g.registrations)) steps) :
    g'.registrations = equip steps [] (g.registrations ++ registered steps) := by
  induction steps generalizing g with
  | nil =>
    obtain rfl := Except.ok.inj h
    rw [equip_nil, registered, List.flatMap_nil, List.append_nil]
  | cons step rest ih =>
    obtain ⟨mid, hmid, hrest⟩ := Result.bind_eq_ok_iff.1 h
    obtain ⟨hknown, hbehind⟩ := nowhere_cons.1 hnone
    rw [funext (strayFrom_cons (names g.registrations) step)] at hbehind
    rw [registered_cons, ← List.append_assoc]
    rcases Step.apply_eq_ok hmid with ⟨rfl, hgives⟩ | ⟨name, f, rfl, rfl⟩
    · rw [ih hrest (by rwa [names_append]), equip_cons fun name _ => hgives name]
    · have hname : name ∈ names g.registrations := by
        by_contra hnot
        exact hknown ⟨name, f, rfl, by simpa [registered, names] using hnot⟩
      obtain ⟨rs, hattach, hbind, hnames⟩ := bind_of_mem (f := f) hname
      rw [hbind] at hrest
      rw [ih hrest (by rw [hnames]; simpa [Step.registers, names] using hbehind),
        equip_attach hattach List.not_mem_nil]
      show _ = equip _ [] (g.registrations ++ [] ++ registered rest)
      rw [List.append_nil]

end Registry

/-! ### Faults -/

instance (enabled : Capabilities) (r : Registration S A) : Decidable (r.Enters enabled) :=
  decidable_of_iff (r.capability.intersects enabled = true ∧ r.kind?.isSome)
    (and_congr_right fun _ => Option.isSome_iff_exists)

namespace Registry

variable {enabled : Capabilities} {steps : List (Step S A)}

/-- What is wrong with a registration, these others having been made before it. -/
inductive Fault (enabled : Capabilities) (steps : List (Step S A)) (before : List (Registration S A))
    (r : Registration S A) : CatalogError → Prop
  | repeated : r.name ∈ names before → Fault enabled steps before r (.duplicatePredicate r.name)
  | noReturn : r.name ∉ names before → r.capability.intersects enabled = true → r.returns = none →
    Fault enabled steps before r (.missingReturn r.name)
  | noImplementation : r.name ∉ names before → r.Enters enabled → attached steps r = none →
    Fault enabled steps before r (.missingImplementation r.name)

/-- The registration is at fault. -/
def IsFaulty (enabled : Capabilities) (steps : List (Step S A)) (before : List (Registration S A))
    (r : Registration S A) : Prop :=
  ∃ e, Fault enabled steps before r e

/-- A registration whose name is new is at fault exactly if its entry is an error. -/
theorem fault_iff {before : List (Registration S A)} {r : Registration S A}
    (hnew : r.name ∉ names before) {e : CatalogError} :
    Fault enabled steps before r e ↔ (equipped steps r).entry enabled = .error e := by
  constructor
  · intro h
    cases h with
    | repeated hseen => exact absurd hseen hnew
    | noReturn _ hintersects hreturns => simp [Registration.entry, equipped, hintersects, hreturns]
    | noImplementation _ henters hattached =>
      obtain ⟨hintersects, kind, hkind⟩ := henters
      obtain ⟨returns, hreturns, hresolve⟩ := Option.bind_eq_some_iff.1 hkind
      simp [Registration.entry, equipped, hintersects, hreturns, hresolve, hattached]
  · intro h
    unfold Registration.entry at h
    split at h
    · rename_i hintersects
      split at h
      · rename_i hreturns
        obtain rfl := Except.error.inj h
        exact .noReturn hnew hintersects hreturns
      · rename_i returns hreturns
        split at h
        · cases h
        · rename_i kind hresolve hattached
          obtain rfl := Except.error.inj h
          exact .noImplementation hnew
            ⟨hintersects, kind, Option.bind_eq_some_iff.2 ⟨returns, hreturns, hresolve⟩⟩ hattached
        · cases h
    · cases h

/-- There is only one fault at a time. -/
theorem Fault.unique {before : List (Registration S A)} {r : Registration S A} {e e' : CatalogError}
    (h : Fault enabled steps before r e) (h' : Fault enabled steps before r e') : e = e' := by
  by_cases hseen : r.name ∈ names before
  · cases h with
    | repeated =>
      cases h' with
      | repeated => rfl
      | noReturn hnew => exact absurd hseen hnew
      | noImplementation hnew => exact absurd hseen hnew
    | noReturn hnew => exact absurd hseen hnew
    | noImplementation hnew => exact absurd hseen hnew
  · rw [fault_iff hseen] at h h'
    exact Except.error.inj (h.symm.trans h')

/-- A registration without an entry is not enabled or has no known kind. -/
theorem not_enters_of_entry {r : Registration S A}
    (h : (equipped steps r).entry enabled = .ok none) : ¬ r.Enters enabled := by
  rintro ⟨hintersects, kind, hkind⟩
  obtain ⟨returns, hreturns, hresolve⟩ := Option.bind_eq_some_iff.1 hkind
  cases hattached : attached steps r with
  | none => simp [Registration.entry, equipped, hintersects, hreturns, hresolve, hattached] at h
  | some f => simp [Registration.entry, equipped, hintersects, hreturns, hresolve, hattached] at h

/-- The entry is that of the registration, with the implementation that the steps leave to it. -/
def EntryOf (enabled : Capabilities) (steps : List (Step S A)) (r : Registration S A)
    (entry : Predicate × Implementation S A) : Prop :=
  (equipped steps r).Supplies enabled entry.1 entry.2

theorem EntryOf.enters {r : Registration S A} {entry : Predicate × Implementation S A}
    (h : EntryOf enabled steps r entry) : r.Enters enabled :=
  ⟨h.intersects, entry.1.returns, h.kind_eq⟩

/-- The entries of equipped registrations: the first one at fault is reported; if there is none, those
that enter become entries, in order. -/
theorem entries_equip {known : List (Registration S A)} {seen : List String}
    (hseen : ∀ name, name ∈ seen ↔ name ∈ names known) (rs : List (Registration S A)) :
    (∃ before r e, FirstAt (fun before => IsFaulty enabled steps (known ++ before)) rs before r ∧
        Fault enabled steps (known ++ before) r e ∧
          entries enabled seen (equip steps seen rs) = .error e) ∨
      Nowhere (fun before => IsFaulty enabled steps (known ++ before)) rs ∧
        ∃ es, entries enabled seen (equip steps seen rs) = .ok es ∧
          List.Forall₂ (EntryOf enabled steps) (rs.filter (·.Enters enabled)) es := by
  induction rs generalizing known seen with
  | nil => exact Or.inr ⟨Nowhere.nil, [], rfl, .nil⟩
  | cons r rest ih =>
    have hnil : known ++ [] = known := List.append_nil known
    rw [equip, entries]
    by_cases hname : r.name ∈ seen
    · have hfault : Fault enabled steps (known ++ []) r (.duplicatePredicate r.name) :=
        .repeated (hnil.symm ▸ (hseen r.name).1 hname)
      refine Or.inl ⟨[], r, _, .head ⟨_, hfault⟩, hfault, ?_⟩
      rw [if_pos hname, if_pos hname]
    · have hnew : r.name ∉ names (known ++ []) := hnil.symm ▸ mt (hseen r.name).2 hname
      have hmore : ∀ name, name ∈ r.name :: seen ↔ name ∈ names (known ++ [r]) := by
        intro name
        rw [names_append, List.mem_cons, List.mem_append, hseen, or_comm]
        simp [names]
      rw [if_neg hname, if_neg (show (equipped steps r).name ∉ seen from hname)]
      cases hentry : (equipped steps r).entry enabled with
      | error e =>
        have hfault := (fault_iff hnew).2 hentry
        exact Or.inl ⟨[], r, e, .head ⟨e, hfault⟩, hfault, rfl⟩
      | ok first =>
        have hfine : ¬ IsFaulty enabled steps (known ++ []) r := by
          rintro ⟨e, hfault⟩
          rw [(fault_iff hnew).1 hfault] at hentry
          cases hentry
        have hassoc : ∀ before, known ++ [r] ++ before = known ++ r :: before :=
          fun before => List.append_cons known r before ▸ rfl
        have hothers := ih hmore
        simp only [hassoc] at hothers
        show (∃ before r' e, _ ∧ _ ∧ (entries enabled (r.name :: seen) _ >>= _) = _) ∨ _
        rcases hothers with ⟨before, r', e, hfirst, hfault, herror⟩ | ⟨hnone, es, hes, hentries⟩
        · exact Or.inl ⟨r :: before, r', e, hfirst.tail hfine, hfault, by rw [herror]; rfl⟩
        · refine Or.inr ⟨nowhere_cons.2 ⟨hfine, hnone⟩, first.toList ++ es, ?_, ?_⟩
          · rw [Result.bind_eq_ok_iff]
            exact ⟨first, rfl, Result.bind_eq_ok_iff.2 ⟨es, hes, rfl⟩⟩
          · cases first with
            | none =>
              rw [List.filter_cons_of_neg (by simpa using not_enters_of_entry hentry)]
              exact hentries
            | some entry =>
              have hof : EntryOf enabled steps r entry := Registration.supplies_of_entry hentry
              rw [List.filter_cons_of_pos (by simpa using hof.enters)]
              exact .cons hof hentries

/-- No name is repeated if none of them has been registered before. -/
theorem nodup_iff_nowhere {known : List String} (hknown : known.Nodup)
    (rs : List (Registration S A)) :
    (known ++ names rs).Nodup ↔ Nowhere (fun before r => r.name ∈ known ++ names before) rs := by
  induction rs generalizing known with
  | nil =>
    rw [names, List.map_nil, List.append_nil]
    exact ⟨fun _ => Nowhere.nil, fun _ => hknown⟩
  | cons r rest ih =>
    have hsplit : ∀ before : List (Registration S A),
        known ++ names (r :: before) = (known ++ [r.name]) ++ names before :=
      fun before => List.append_cons known r.name (names before)
    have hnil : known ++ names ([] : List (Registration S A)) = known := List.append_nil known
    simp only [nowhere_cons, hsplit, hnil]
    by_cases hname : r.name ∈ known
    · refine iff_of_false (fun hnodup => ?_) fun h => h.1 hname
      have hfirst := (List.nodup_append.1 hnodup).1
      exact (List.nodup_append.1 hfirst).2.2 _ hname _ List.mem_cons_self rfl
    · have hmore : (known ++ [r.name]).Nodup := by
        rw [List.nodup_append]
        refine ⟨hknown, List.pairwise_singleton _ _, fun a ha b hb => ?_⟩
        rw [List.mem_singleton.1 hb]
        exact fun heq => hname (heq ▸ ha)
      rw [ih hmore]
      exact ⟨fun h => ⟨hname, h⟩, And.right⟩

/-- What has been registered is without fault if the names differ and what is enabled has a return type
and, if its kind is known, an implementation. -/
theorem nowhere_isFaulty_iff {rs : List (Registration S A)} :
    Nowhere (IsFaulty enabled steps) rs ↔
      (names rs).Nodup ∧ ∀ r ∈ rs, r.capability.intersects enabled = true →
        r.returns ≠ none ∧ ∀ kind, r.kind? = some kind → attached steps r ≠ none := by
  have hnodup : (names rs).Nodup ↔ Nowhere (fun before r => r.name ∈ names before) rs :=
    nodup_iff_nowhere List.nodup_nil rs
  rw [hnodup]
  constructor
  · intro h
    refine ⟨fun before r after hrs hseen => h before r after hrs ⟨_, .repeated hseen⟩, ?_⟩
    intro r hr hintersects
    obtain ⟨before, after, hrs⟩ := List.append_of_mem hr
    have hfine := h before r after hrs
    have hnew : r.name ∉ names before := fun hseen => hfine ⟨_, .repeated hseen⟩
    refine ⟨fun hreturns => hfine ⟨_, .noReturn hnew hintersects hreturns⟩, ?_⟩
    exact fun kind hkind hattached =>
      hfine ⟨_, .noImplementation hnew ⟨hintersects, kind, hkind⟩ hattached⟩
  · rintro ⟨hnew, hfine⟩ before r after rfl ⟨e, hfault⟩
    have hr : r ∈ before ++ r :: after := List.mem_append_right _ List.mem_cons_self
    cases hfault with
    | repeated hseen => exact hnew before r after rfl hseen
    | noReturn _ hintersects hreturns => exact (hfine r hr hintersects).1 hreturns
    | noImplementation _ henters hattached =>
      obtain ⟨hintersects, kind, hkind⟩ := henters
      exact (hfine r hr hintersects).2 kind hkind hattached

/-! ### What is built of steps -/

/-- After the steps there is a stray binding, or else a fault, or else a catalog of what enters. -/
theorem build_cases {g : Registry S A} (h : Registry.empty.run steps = .ok g) (enabled : Capabilities) :
    (∃ before name f, FirstAt IsStray steps before (.bind name f) ∧
      g.build enabled = .error (.undeclaredBinding name)) ∨
    (Nowhere IsStray steps ∧ ∃ before r e,
      FirstAt (IsFaulty enabled steps) (registered steps) before r ∧ Fault enabled steps before r e ∧
        g.build enabled = .error e) ∨
    (Nowhere IsStray steps ∧ Nowhere (IsFaulty enabled steps) (registered steps) ∧
      ∃ catalog, g.build enabled = .ok catalog ∧
        List.Forall₂ (EntryOf enabled steps) ((registered steps).filter (·.Enters enabled))
          catalog.entries) := by
  rcases run_strays h with ⟨hnone, hstray⟩ | ⟨before, name, f, more, hfirst, hstray⟩
  · have hregistrations : g.registrations = equip steps [] (registered steps) :=
      run_registrations h hnone
    have hempty : g.stray = [] := hstray
    rcases @entries_equip S A enabled steps [] [] (fun _ => Iff.rfl) (registered steps) with
      ⟨before, r, e, hfirst, hfault, herror⟩ | ⟨hfine, es, hes, hentries⟩
    · refine Or.inr (Or.inl ⟨hnone, before, r, e, hfirst, hfault, ?_⟩)
      rw [build, hempty, hregistrations]
      simp only [herror, Except.map]
    · refine Or.inr (Or.inr ⟨hnone, hfine, ⟨es⟩, ?_, hentries⟩)
      rw [build, hempty, hregistrations]
      simp only [hes, Except.map]
  · have hnoted : g.stray = name :: more := hstray
    refine Or.inl ⟨before, name, f, hfirst, ?_⟩
    rw [build, hnoted]

/-- **What a catalog is built of.**  After any steps there is a catalog exactly if every binding names
what has been registered before it, no name is registered twice, and everything that is enabled has a
return type and, if that has a known kind, an implementation.  The entries of the catalog are then those
of the enabled registrations with a known kind, in the order in which they were registered, each with
the implementation that it was given last; the two columns that registrations fill are those of the
entries.  Otherwise the error is that of the first stray binding; if there is none, it is that of the
first registration at fault. -/
theorem build_of_steps {steps : List (Step S A)} {g : Registry S A}
    (h : Registry.empty.run steps = .ok g) (enabled : Capabilities) :
    g.buildColumns enabled = (g.build enabled).map Catalog.columns ∧
    ((∃ catalog, g.build enabled = .ok catalog) ↔
      (∀ before name f after, steps = before ++ .bind name f :: after →
        name ∈ names (registered before)) ∧
      (names (registered steps)).Nodup ∧
      ∀ r ∈ registered steps, r.capability.intersects enabled = true →
        r.returns ≠ none ∧ ∀ kind, r.kind? = some kind → attached steps r ≠ none) ∧
    (∀ catalog, g.build enabled = .ok catalog →
      List.Forall₂ (EntryOf enabled steps) ((registered steps).filter (·.Enters enabled))
        catalog.entries) ∧
    ∀ e, g.build enabled = .error e ↔
      (∃ before name f, FirstAt IsStray steps before (.bind name f) ∧ e = .undeclaredBinding name) ∨
      (Nowhere IsStray steps ∧ ∃ before r,
        FirstAt (IsFaulty enabled steps) (registered steps) before r ∧
          Fault enabled steps before r e) := by
  have hstray : Nowhere IsStray steps ↔ ∀ before name f after,
      steps = before ++ .bind name f :: after → name ∈ names (registered before) := by
    constructor
    · intro hnone before name f after hsteps
      by_contra hnot
      exact hnone before _ after hsteps ⟨name, f, rfl, hnot⟩
    · rintro hall before step after hsteps ⟨name, f, rfl, hnot⟩
      exact hnot (hall before name f after hsteps)
  refine ⟨buildColumns_eq enabled g, ?_⟩
  rw [← nowhere_isFaulty_iff, ← hstray]
  rcases build_cases h enabled with ⟨before, name, f, hfirst, herror⟩ |
    ⟨hnone, before, r, e, hfirst, hfault, herror⟩ | ⟨hnone, hfine, catalog, hbuilt, hentries⟩
  · have hfails : ∀ catalog, g.build enabled ≠ .ok catalog := by simp [herror]
    have hnot : ¬ Nowhere IsStray steps := hfirst.not_nowhere
    refine ⟨iff_of_false (not_exists.2 hfails) fun hall => hnot hall.1,
      fun catalog hbuilt => absurd hbuilt (hfails catalog), fun e => ⟨fun he => ?_, ?_⟩⟩
    · exact Or.inl ⟨before, name, f, hfirst, Except.error.inj (he.symm.trans herror)⟩
    · rintro (⟨before', name', f', hfirst', rfl⟩ | ⟨hnone, _⟩)
      · obtain ⟨hstep, _⟩ := hfirst.unique hfirst'
        obtain ⟨rfl, _⟩ := Step.bind.inj hstep
        exact herror
      · exact absurd hnone hnot
  · have hfails : ∀ catalog, g.build enabled ≠ .ok catalog := by simp [herror]
    have hnot : ¬ Nowhere (IsFaulty enabled steps) (registered steps) := hfirst.not_nowhere
    refine ⟨iff_of_false (not_exists.2 hfails) fun hall => hnot hall.2,
      fun catalog hbuilt => absurd hbuilt (hfails catalog), fun e' => ⟨fun he' => ?_, ?_⟩⟩
    · obtain rfl := Except.error.inj (he'.symm.trans herror)
      exact Or.inr ⟨hnone, before, r, hfirst, hfault⟩
    · rintro (⟨_, _, _, hfirst', _⟩ | ⟨_, before', r', hfirst', hfault'⟩)
      · exact absurd hnone hfirst'.not_nowhere
      · obtain ⟨rfl, rfl⟩ := hfirst.unique hfirst'
        rw [herror, hfault.unique hfault']
  · refine ⟨iff_of_true ⟨catalog, hbuilt⟩ ⟨hnone, hfine⟩, fun catalog' hbuilt' => ?_,
      fun e => iff_of_false (by simp [hbuilt]) ?_⟩
    · rw [hbuilt] at hbuilt'
      rwa [← Except.ok.inj hbuilt']
    · rintro (⟨_, _, _, hfirst, _⟩ | ⟨_, _, _, hfirst, _⟩)
      · exact absurd hnone hfirst.not_nowhere
      · exact absurd hfine hfirst.not_nowhere

/-- A declared predicate is bound before and after another one is registered; a third one has no known
kind. -/
def rebound : List (Step Unit Unit) :=
  [.declare "predicate stab(action) -> bool\npredicate mood(state) -> Mood",
    .bind "stab" fun _ _ _ => .bool false,
    .register ⟨"power", [.action], some (.kind .movePower), .core, some fun _ _ _ => .int 40⟩,
    .bind "stab" fun _ _ _ => .bool true]

/-- The later binding counts.  A binding in front of the steps is stray, whatever comes behind it. -/
theorem build_of_steps_rebound :
    ∃ g catalog g', Registry.empty.run rebound = .ok g ∧ g.build .core = .ok catalog ∧
      List.Forall₂ (EntryOf .core rebound) ((registered rebound).filter (·.Enters .core))
        catalog.entries ∧
      catalog.predicates = [⟨"stab", [.action], .bool⟩, ⟨"power", [.action], .movePower⟩] ∧
      catalog.answers () () 0 [] = .bool true ∧
      Registry.empty.run (.bind "stab" (fun _ _ _ => .bool false) :: rebound) = .ok g' ∧
      g'.build .core = .error (.undeclaredBinding "stab") := by
  have hparse : Declaration.parse "predicate stab(action) -> bool\npredicate mood(state) -> Mood" =
      .ok [⟨"stab", [.action], "bool", .core⟩, ⟨"mood", [.state], "Mood", .core⟩] := by
    decide +kernel
  have hrun : ∃ g, Registry.empty.run rebound = .ok g ∧ ∃ catalog, g.build .core = .ok catalog ∧
      catalog.predicates = [⟨"stab", [.action], .bool⟩, ⟨"power", [.action], .movePower⟩] ∧
      catalog.answers () () 0 [] = .bool true := by
    simp only [rebound, run, Step.apply, declare, hparse]
    exact ⟨_, rfl, _, rfl, rfl, rfl⟩
  have hrun' : ∃ g', Registry.empty.run (.bind "stab" (fun _ _ _ => .bool false) :: rebound) =
      .ok g' := by
    simp only [rebound, run, Step.apply, declare, hparse]
    exact ⟨_, rfl⟩
  obtain ⟨g, hg, catalog, hbuilt, hpredicates, hanswers⟩ := hrun
  obtain ⟨g', hg'⟩ := hrun'
  obtain ⟨_, _, hentries, _⟩ := build_of_steps hg .core
  obtain ⟨_, _, _, herrors⟩ := build_of_steps hg' .core
  have hstray : IsStray [] (.bind "stab" fun _ _ _ => .bool false : Step Unit Unit) :=
    ⟨_, _, rfl, List.not_mem_nil⟩
  exact ⟨g, catalog, g', hg, hbuilt, hentries catalog hbuilt, hpredicates, hanswers, hg',
    (herrors _).2 (Or.inl ⟨[], "stab", _, .head hstray, rfl⟩)⟩

end Registry

end ScoreScript
