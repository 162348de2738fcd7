import ScoreScript.Catalog.Basic
import ScoreScript.Declaration.Reader

/-!
# Registering predicates

A registry collects predicates in order, and implementations for them, until a catalog is made of
it for a set of enabled capabilities.

* `Registry.register`, `Registry.declare`, `Registry.bind` — one predicate, all those that a text
  declares, and an implementation for a registered name;
* `Registry.build` — the catalog of the enabled predicates whose result has a known kind, or the
  first registration that is wrong;
* `Registration.entry` — what becomes of one registration.
-/

namespace ScoreScript

/-- The type of a result, as a kind or as the name of one. -/
inductive ReturnType where
  | kind (kind : Kind)
  | named (name : String)
  deriving DecidableEq

/-- The kind that a return type stands for; not every name stands for one. -/
def ReturnType.resolve : ReturnType → Option Kind
  | kind k => some k
  | named name => Kind.ofTypeName? name

/-- A predicate as it was registered.  Return type and implementation may still be missing. -/
structure Registration (S A : Type) where
  name : String
  params : List Param
  returns : Option ReturnType
  capability : Capabilities
  implementation : Option (Implementation S A)

/-- Why no catalog can be made. -/
inductive CatalogError where
  | duplicatePredicate (name : String)
  | missingImplementation (name : String)
  | missingReturn (name : String)
  | undeclaredBinding (name : String)
  deriving DecidableEq

/-- The wording of an error. -/
def CatalogError.message : CatalogError → String
  | duplicatePredicate name => s!"duplicate predicate name '{name}'"
  | missingImplementation name => s!"predicate '{name}' has no implementation"
  | missingReturn name => s!"predicate '{name}' declares no return type"
  | undeclaredBinding name => s!"implementation bound to undeclared predicate '{name}'"

namespace Registration

variable {S A : Type}

/-- The registration of a declared predicate, whose implementation is still to come. -/
def ofDeclaration (d : Declaration) : Registration S A :=
  ⟨d.name, d.params, some (.named d.returns), d.capability, none⟩

/-- The entry of a catalog that a registration becomes.  It becomes none when it is not enabled or
when its return type names no kind. -/
def entry (enabled : Capabilities) (r : Registration S A) :
    Except CatalogError (Option (Predicate × Implementation S A)) :=
  if r.capability.intersects enabled then
    match r.returns with
    | none => .error (.missingReturn r.name)
    | some returns =>
      match returns.resolve, r.implementation with
      | none, _ => .ok none
      | some _, none => .error (.missingImplementation r.name)
      | some kind, some implementation => .ok (some (⟨r.name, r.params, kind⟩, implementation))
  else .ok none

theorem entry_disabled {enabled : Capabilities} {r : Registration S A}
    (h : r.capability.intersects enabled = false) : r.entry enabled = .ok none := by
  simp [entry, h]

end Registration

/-- Registrations in order, and the names that were bound without being registered. -/
structure Registry (S A : Type) where
  registrations : List (Registration S A)
  stray : List String

namespace Registry

variable {S A : Type}

/-- Nothing registered. -/
def empty : Registry S A := ⟨[], []⟩

/-- One more predicate. -/
def register (r : Registration S A) (g : Registry S A) : Registry S A :=
  { g with registrations := g.registrations ++ [r] }

/-- The predicates that a text declares. -/
def declare (text : String) (g : Registry S A) : Except ParseError (Registry S A) :=
  (Declaration.parse text).map fun ds =>
    { g with registrations := g.registrations ++ ds.map Registration.ofDeclaration }

/-- The registrations in which the first one with a name has an implementation, if there is one. -/
def attach (name : String) (f : Implementation S A) :
    List (Registration S A) → Option (List (Registration S A))
  | [] => none
  | r :: rest =>
    if r.name = name then some ({ r with implementation := some f } :: rest)
    else (attach name f rest).map (r :: ·)

/-- An implementation for the first predicate registered under a name. -/
def bind (name : String) (f : Implementation S A) (g : Registry S A) : Registry S A :=
  match attach name f g.registrations with
  | some registrations => { g with registrations := registrations }
  | none => { g with stray := g.stray ++ [name] }

/-- The entries of registrations whose names differ from those seen and from one another. -/
def entries (enabled : Capabilities) (seen : List String) :
    List (Registration S A) → Except CatalogError (List (Predicate × Implementation S A))
  | [] => .ok []
  | r :: rest =>
    if r.name ∈ seen then .error (.duplicatePredicate r.name)
    else do
      let first ← r.entry enabled
      let others ← entries enabled (r.name :: seen) rest
      return first.toList ++ others

/-- The catalog of the enabled predicates. -/
def build (enabled : Capabilities) (g : Registry S A) : Except CatalogError (Catalog S A) :=
  match g.stray with
  | name :: _ => .error (.undeclaredBinding name)
  | [] => (entries enabled [] g.registrations).map Catalog.mk

theorem attach_names {name : String} {f : Implementation S A} {rs rs' : List (Registration S A)}
    (h : attach name f rs = some rs') : rs'.map (·.name) = rs.map (·.name) := by
  induction rs generalizing rs' with
  | nil => simp [attach] at h
  | cons r rest ih =>
    simp only [attach] at h
    split at h
    · simp only [Option.some.injEq] at h
      rw [← h]
      rfl
    · obtain ⟨rest', hrest, rfl⟩ := Option.map_eq_some_iff.1 h
      rw [List.map_cons, List.map_cons, ih hrest]

end Registry

end ScoreScript
