import ScoreScript.Compiled.Basic
import ScoreScript.Script.Error

/-!
# Compiling trees

A tree is compiled against the predicates of a catalog.  Names become positions, arguments and
literals have to be legal, operators have to fit the class of the result, and adjustments have to
be in range and not zero.

* `Tree.compile` — the blocks of a tree, or the first fault;
* `findPredicate` — the position and the declaration of a name.
-/

namespace ScoreScript

/-- The position, counted from `index`, and the declaration of the predicate with a name. -/
def findPredicate (name : String) (index : Nat) : List Predicate → Option (Nat × Predicate)
  | [] => none
  | p :: rest => if p.name = name then some (index, p) else findPredicate name (index + 1) rest

theorem findPredicate_eq_some {name : String} {index i : Nat} {ps : List Predicate} {p : Predicate}
    (h : findPredicate name index ps = some (i, p)) :
    index ≤ i ∧ ps[i - index]? = some p ∧ p.name = name := by
  induction ps generalizing index with
  | nil => simp [findPredicate] at h
  | cons q rest ih =>
    simp only [findPredicate] at h
    split at h
    · rename_i hname
      simp only [Option.some.injEq, Prod.mk.injEq] at h
      obtain ⟨rfl, rfl⟩ := h
      exact ⟨Nat.le_refl _, by simp, hname⟩
    · obtain ⟨hle, hget, hname⟩ := ih h
      refine ⟨by omega, ?_, hname⟩
      rw [show i - index = (i - (index + 1)) + 1 by omega, List.getElem?_cons_succ]
      exact hget

/-- A literal has to be a member of the kind. -/
def checkLegal (kind : Kind) (value : Literal) : Except CompileFault Unit :=
  if kind.contains value then .ok () else .error (.illegalLiteral kind value)

/-- The literals for the choices among parameters, when every node fits its parameter. -/
def compileArguments : List Param → List Tree → Except CompileFault (List Literal)
  | .state :: params, t :: rest =>
    if t.terminal? = some .state then compileArguments params rest else .error (.malformed .call)
  | .action :: params, t :: rest =>
    if t.terminal? = some .action then compileArguments params rest else .error (.malformed .call)
  | .choice kind :: params, t :: rest =>
    match t.literal? with
    | none => .error (.malformed .call)
    | some value => do
      checkLegal kind value
      let values ← compileArguments params rest
      return value :: values
  | _, _ => .ok []

/-- A call of a declared predicate, with the operator and the literal behind it if there are any.
Truth values stand alone; all other results are compared. -/
def compileCall (id : NodeId) (r : Rule) (target : Nat) (p : Predicate) (arguments : List Tree)
    (comparison : Option (Tree × Tree)) : Except CompileFault Condition := do
  if arguments.length ≠ p.params.length then
    throw (.arity p.name p.params.length arguments.length)
  let call : Call := ⟨target, p, ← compileArguments p.params arguments⟩
  match comparison, p.returns.kindClass with
  | none, .boolean => return .call id call
  | none, _ => throw (.missingComparison p.name p.returns)
  | some _, .boolean => throw (.comparedBoolean p.name)
  | some (opNode, valueNode), c =>
    match opNode.comparator? with
    | none => throw (.malformed r)
    | some op =>
      if c = .enumerated ∧ ¬ op.isEquality then throw (.illegalComparator p.returns op)
      match valueNode.literal? with
      | none => throw (.malformed r)
      | some value =>
        checkLegal p.returns value
        return .compare id call op value

namespace Tree

/-- The condition under a node. -/
def compileCondition (ps : List Predicate) : Tree → Except CompileFault Condition
  | node _ (.terminal _) _ => .error (.malformed .condition)
  | node _ (.rule .condition) [t] => compileCondition ps t
  | node _ (.rule .atom) [t] => compileCondition ps t
  | node _ (.rule .call) [t] => compileCondition ps t
  | node id (.rule .conjunction) [a, b] => do
    let a ← compileCondition ps a
    let b ← compileCondition ps b
    return .and id a b
  | node id (.rule .disjunction) [a, b] => do
    let a ← compileCondition ps a
    let b ← compileCondition ps b
    return .or id a b
  | node id (.rule .negation) [a] => do
    let a ← compileCondition ps a
    return .not id a
  | node id (.rule (.predicate i)) (node _ (.terminal (.name name)) _ :: rest) =>
    match findPredicate name 0 ps with
    | none => .error (.unknownPredicate name)
    | some (target, p) =>
      let (arguments, comparison) := splitComparison rest
      compileCall id (.predicate i) target p arguments comparison
  | node _ (.rule r) _ => .error (.malformed r)

/-- The adjustment under the body of a block. -/
def compileDelta (range : Int) (t : Tree) : Except CompileFault Int :=
  match t.integer? with
  | none => .error (.malformed (t.rule?.getD .body))
  | some delta =>
    if delta = 0 ∨ ¬ (-range ≤ delta ∧ delta ≤ range) then .error (.illegalScore delta range)
    else .ok delta

/-- The block at a node. -/
def compileBlock (ps : List Predicate) (range : Int) : Tree → Except CompileFault Block
  | node id (.rule .block) [condition, body] => do
    let condition ← compileCondition ps condition
    let delta ← compileDelta range body
    return ⟨id, condition, delta⟩
  | _ => .error (.malformed .block)

/-- The blocks of a tree: those below the start, or a single one. -/
def compile (ps : List Predicate) (range : Int) (t : Tree) : Except CompileFault (List Block) :=
  match t with
  | node _ (.rule .start) blocks => blocks.mapM (compileBlock ps range)
  | node _ (.rule .block) _ => do
    let block ← compileBlock ps range t
    return [block]
  | node _ (.rule r) _ => .error (.malformed r)
  | node _ (.terminal _) _ => .error (.malformed .start)

theorem compileDelta_eq_ok_iff {range delta : Int} {t : Tree} :
    compileDelta range t = .ok delta ↔
      t.integer? = some delta ∧ delta ≠ 0 ∧ -range ≤ delta ∧ delta ≤ range := by
  unfold compileDelta
  cases ht : t.integer? with
  | none => simp
  | some d =>
    simp only [Option.some.injEq]
    split
    · rename_i hbad
      constructor
      · intro h
        exact absurd h (by simp)
      · rintro ⟨rfl, hne, hlo, hhi⟩
        omega
    · rename_i hgood
      simp only [Except.ok.injEq]
      constructor
      · rintro rfl
        omega
      · exact fun h => h.1

end Tree

end ScoreScript
