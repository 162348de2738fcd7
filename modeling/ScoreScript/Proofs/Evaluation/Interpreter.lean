import ScoreScript.Catalog.Basic
import ScoreScript.Evaluation.Score

/-!
# Interpreting trees

The meaning of a script, read off its tree without compiling it.  Blocks are visited from left to
right; conditions, atoms and calls stand for what is below them; conjunctions and disjunctions do
without the second part when the first decides; a call asks the predicate of the catalog that has
its name.  Nothing but the labels of the tree and the declarations of the catalog is looked at.

* `Interpretation` — the calls made, each by name, and what they lead to;
* `Tree.bottom?` — the terminal under a node;
* `Tree.interpretCall`, `Tree.interpretCondition` — what a call and a condition say;
* `Tree.interpret` — the score of a tree.
-/

namespace ScoreScript

/-! ### Interpretations -/

/-- Why there is no result: the tree says nothing there, or a predicate answers wrongly. -/
inductive Halt where
  | meaningless
  | failed (error : EvalError)
  deriving DecidableEq

/-- The calls that are made, in order, each with the name of its predicate and the literals that it
passes, and the result. -/
structure Interpretation (α : Type) where
  calls : List (String × List Literal)
  result : Except Halt α

namespace Interpretation

variable {α β : Type}

/-- A result without any call. -/
def succeed (value : α) : Interpretation α := ⟨[], .ok value⟩

/-- No result, and no call either. -/
def halt (reason : Halt) : Interpretation α := ⟨[], .error reason⟩

/-- One interpretation after another.  Without a result there is no other. -/
def andThen (x : Interpretation α) (f : α → Interpretation β) : Interpretation β :=
  match x.result with
  | .error reason => ⟨x.calls, .error reason⟩
  | .ok value => ⟨x.calls ++ (f value).calls, (f value).result⟩

instance : Monad Interpretation where
  pure := succeed
  bind := andThen

/-- A predicate is asked.  Its answer has to be of the declared kind. -/
def ask (p : Predicate) (answer : List Literal → Literal) (literals : List Literal) :
    Interpretation Literal :=
  ⟨[(p.name, literals)],
    if p.returns.contains (answer literals) then .ok (answer literals)
    else .error (.failed (.illegalReturn p.name p.returns (answer literals)))⟩

end Interpretation

/-! ### Trees -/

namespace Tree

/-- The terminal at the bottom of a chain of only children. -/
def bottom? : Tree → Option Terminal
  | node _ (.terminal term) _ => some term
  | node _ (.rule _) [only] => bottom? only
  | node _ (.rule _) _ => none

/-- The literals under the nodes that stand for choices, in the order of the parameters. -/
def choiceLiterals? : List Param → List Tree → Option (List Literal)
  | [], [] => some []
  | .choice _ :: params, t :: rest =>
    match t.bottom? with
    | some (.value literal) => (choiceLiterals? params rest).map (literal :: ·)
    | _ => none
  | _ :: params, _ :: rest => choiceLiterals? params rest
  | _, _ => none

/-- What an answer says: a truth value speaks for itself, every other one is compared with a literal
by an operator, and both stand behind the arguments. -/
def interpretAnswer (value : Literal) : KindClass → List Tree → Interpretation Bool
  | .boolean, [] =>
    match value with
    | .bool b => pure b
    | _ => .halt .meaningless
  | .numeric, [opNode, literalNode] | .enumerated, [opNode, literalNode] =>
    match opNode.bottom?, literalNode.bottom? with
    | some (.op op), some (.value literal) =>
      match Literal.compare op value literal with
      | some holds => pure holds
      | none => .halt .meaningless
    | _, _ => .halt .meaningless
  | _, _ => .halt .meaningless

theorem interpretAnswer_compared {value literal : Literal} {c : KindClass}
    {opNode literalNode : Tree} {op : Comparator} {holds : Bool} (hclass : c ≠ .boolean)
    (hop : opNode.bottom? = some (.op op)) (hliteral : literalNode.bottom? = some (.value literal))
    (hholds : Literal.compare op value literal = some holds) :
    interpretAnswer value c [opNode, literalNode] = pure holds := by
  cases c with
  | boolean => exact absurd rfl hclass
  | numeric | enumerated =>
    rw [interpretAnswer, hop, hliteral]
    simp only [hholds]

variable {S A : Type} (catalog : Catalog S A) (s : S) (a : A)

/-- What a call says: the predicate with that name is asked with the literals for its choices.
There is one node for each parameter; what stands behind them tells what the answer is compared
with. -/
def interpretCall (name : String) (parts : List Tree) : Interpretation Bool :=
  match catalog.entries.find? fun entry => entry.1.name == name with
  | none => .halt .meaningless
  | some (p, implementation) =>
    match choiceLiterals? p.params (parts.take p.params.length) with
    | none => .halt .meaningless
    | some literals => do
      let value ← Interpretation.ask p (implementation s a) literals
      interpretAnswer value p.returns.kindClass (parts.drop p.params.length)

/-- What a call says, once its predicate is found and its arguments are told from what stands behind
them. -/
theorem interpretCall_append {name : String} {p : Predicate} {implementation : Implementation S A}
    {arguments behind : List Tree} {literals : List Literal}
    (hfind : catalog.entries.find? (fun entry => entry.1.name == name) = some (p, implementation))
    (hlen : arguments.length = p.params.length)
    (hliterals : choiceLiterals? p.params arguments = some literals) :
    interpretCall catalog s a name (arguments ++ behind) =
      (Interpretation.ask p (implementation s a) literals >>= fun value =>
        interpretAnswer value p.returns.kindClass behind) := by
  have htake : (arguments ++ behind).take p.params.length = arguments := List.take_left' hlen
  have hdrop : (arguments ++ behind).drop p.params.length = behind := List.drop_left' hlen
  rw [interpretCall, hfind]
  simp only [htake, hdrop, hliterals]

/-- What a condition says. -/
def interpretCondition : Tree → Interpretation Bool
  | node _ (.rule .condition) [t] => interpretCondition t
  | node _ (.rule .atom) [t] => interpretCondition t
  | node _ (.rule .call) [t] => interpretCondition t
  | node _ (.rule .conjunction) [x, y] => do
    let first ← interpretCondition x
    if first then interpretCondition y else pure false
  | node _ (.rule .disjunction) [x, y] => do
    let first ← interpretCondition x
    if first then pure true else interpretCondition y
  | node _ (.rule .negation) [x] => do
    let inner ← interpretCondition x
    pure !inner
  | node _ (.rule (.predicate _)) (node _ (.terminal (.name name)) _ :: parts) =>
    interpretCall catalog s a name parts
  | _ => .halt .meaningless

/-- The score of blocks on top of a total: a block whose condition holds adds the integer under its
body. -/
def interpretBlocks (total : Int) : List Tree → Interpretation Int
  | [] => pure total
  | node _ (.rule .block) [condition, body] :: rest => do
    let holds ← interpretCondition catalog s a condition
    if holds then
      match body.bottom? with
      | some (.value (.int delta)) => interpretBlocks (total + delta.toInt) rest
      | _ => .halt .meaningless
    else interpretBlocks total rest
  | _ => .halt .meaningless

/-- The score of a tree: that of the blocks below the start, or of a single block, on top of 0. -/
def interpret : Tree → Interpretation Int
  | node _ (.rule .start) blocks => interpretBlocks catalog s a 0 blocks
  | t => interpretBlocks catalog s a 0 [t]

end Tree

end ScoreScript
