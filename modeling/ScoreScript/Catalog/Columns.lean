import ScoreScript.Catalog.Registry

/-!
# Catalogs in columns

Predicates and implementations can be kept in two lists of their own that are matched by position.  They
are filled registration by registration: what is not enabled or has no known kind is left out of both,
and whatever enters is added at the end of both.

* `Columns`, `Columns.push` — the two lists, and one more place in both;
* `Registry.fill`, `Registry.buildColumns` — the columns that registrations fill;
* `Registry.fill_eq`, `Registry.buildColumns_eq` — they are the columns of the catalog.
-/

namespace ScoreScript

variable {S A : Type}

/-- Predicates and implementations, matched by position. -/
structure Columns (S A : Type) where
  predicates : List Predicate
  implementations : List (Implementation S A)

namespace Columns

/-- Nothing in either column. -/
def empty : Columns S A := ⟨[], []⟩

/-- One more place in both columns. -/
def push (c : Columns S A) (p : Predicate) (f : Implementation S A) : Columns S A :=
  ⟨c.predicates ++ [p], c.implementations ++ [f]⟩

/-- More entries below both columns. -/
def extend (c : Columns S A) (entries : List (Predicate × Implementation S A)) : Columns S A :=
  ⟨c.predicates ++ entries.map (·.1), c.implementations ++ entries.map (·.2)⟩

theorem extend_nil (c : Columns S A) : c.extend [] = c := by
  rw [extend, List.map_nil, List.map_nil, List.append_nil, List.append_nil]

theorem extend_cons (c : Columns S A) (p : Predicate) (f : Implementation S A)
    (entries : List (Predicate × Implementation S A)) :
    c.extend ((p, f) :: entries) = (c.push p f).extend entries := by
  simp only [extend, push, List.map_cons, List.append_assoc, List.singleton_append]

end Columns

/-- The columns of a catalog. -/
def Catalog.columns (c : Catalog S A) : Columns S A :=
  ⟨c.predicates, c.entries.map (·.2)⟩

namespace Registry

/-- The columns with what registrations add, one after another.  Names that were seen must not come
again, whether they entered or not. -/
def fill (enabled : Capabilities) (seen : List String) (columns : Columns S A) :
    List (Registration S A) → Except CatalogError (Columns S A)
  | [] => .ok columns
  | r :: rest =>
    if r.name ∈ seen then .error (.duplicatePredicate r.name)
    else if r.capability.intersects enabled then
      match r.returns with
      | none => .error (.missingReturn r.name)
      | some returns =>
        match returns.resolve with
        | none => fill enabled (r.name :: seen) columns rest
        | some kind =>
          match r.implementation with
          | none => .error (.missingImplementation r.name)
          | some f => fill enabled (r.name :: seen) (columns.push ⟨r.name, r.params, kind⟩ f) rest
    else fill enabled (r.name :: seen) columns rest

/-- The columns of the enabled predicates. -/
def buildColumns (enabled : Capabilities) (g : Registry S A) :
    Except CatalogError (Columns S A) :=
  match g.stray with
  | name :: _ => .error (.undeclaredBinding name)
  | [] => fill enabled [] .empty g.registrations

/-- The entries of registrations are added to both columns. -/
theorem fill_eq (enabled : Capabilities) (seen : List String) (columns : Columns S A)
    (rs : List (Registration S A)) :
    fill enabled seen columns rs = (entries enabled seen rs).map columns.extend := by
  induction rs generalizing seen columns with
  | nil => exact congrArg Except.ok columns.extend_nil.symm
  | cons r rest ih =>
    rw [fill, entries]
    by_cases hseen : r.name ∈ seen
    · rw [if_pos hseen, if_pos hseen]
      rfl
    · rw [if_neg hseen, if_neg hseen]
      -- a registration without an entry leaves the columns to the rest
      have hskip : (entries enabled (r.name :: seen) rest).map columns.extend =
          ((Except.ok none >>= fun first : Option (Predicate × Implementation S A) => do
            let others ← entries enabled (r.name :: seen) rest
            return first.toList ++ others).map columns.extend) := by
        cases entries enabled (r.name :: seen) rest <;> rfl
      cases hintersects : r.capability.intersects enabled with
      | false =>
        rw [if_neg Bool.false_ne_true, ih, Registration.entry_disabled hintersects]
        exact hskip
      | true =>
        rw [if_pos rfl, Registration.entry, if_pos hintersects]
        cases r.returns with
        | none => rfl
        | some returns =>
          cases hkind : returns.resolve with
          | none =>
            simp only [hkind]
            rw [ih]
            exact hskip
          | some kind =>
            cases himplementation : r.implementation with
            | none => simp only [hkind]; rfl
            | some f =>
              simp only [hkind]
              rw [ih]
              cases entries enabled (r.name :: seen) rest with
              | error e => rfl
              | ok others => exact congrArg Except.ok (columns.extend_cons _ f others).symm

/-- The two columns are those of the catalog, and they are missing for the same reasons. -/
theorem buildColumns_eq (enabled : Capabilities) (g : Registry S A) :
    g.buildColumns enabled = (g.build enabled).map Catalog.columns := by
  rw [buildColumns, build]
  cases g.stray with
  | cons name more => rfl
  | nil =>
    simp only [fill_eq]
    cases entries enabled [] g.registrations <;> rfl

end Registry

end ScoreScript
