import ScoreScript.Script.Error

/-!
# The text of a script

Every block becomes one line, `if (condition): score += n` or `if (condition): score -= n`.
Compound conditions and comparisons stand in parentheses, so the text needs no precedence.

* `Tree.render` — the text of a tree, or the first node whose children do not fit its rule;
* `callText`, `comparisonText` — the text of a call without and with a comparison;
* `adjustmentText` — the text of a score adjustment.
-/

namespace ScoreScript

/-- A call with its arguments. -/
def callText (name : String) (arguments : List String) : String :=
  name ++ "(" ++ ", ".intercalate arguments ++ ")"

/-- A call whose result is compared. -/
def comparisonText (call op value : String) : String :=
  "(" ++ call ++ " " ++ op ++ " " ++ value ++ ")"

/-- The texts before the last two, and the last two. -/
def splitLastTwo : List String → List String × Option (String × String)
  | [] => ([], none)
  | [x] => ([x], none)
  | [x, y] => ([], some (x, y))
  | x :: rest =>
    let (before, pair) := splitLastTwo rest
    (x :: before, pair)

/-- A call from the texts behind its name, the last two of which are an operator and a literal if
the call is compared. -/
def layoutCall (name : String) (compared : Bool) (texts : List String) : String :=
  if compared then
    match splitLastTwo texts with
    | (arguments, some (op, value)) => comparisonText (callText name arguments) op value
    | (arguments, none) => callText name arguments
  else callText name texts

/-- A score adjustment; a negative one is shown as a subtraction. -/
def adjustmentText (delta : Int) : String :=
  if delta < 0 then "score -= " ++ delta.natAbs.repr else "score += " ++ delta.natAbs.repr

/-- A block. -/
def blockText (condition body : String) : String :=
  "if (" ++ condition ++ "): " ++ body ++ "\n"

namespace Tree

mutual

/-- The text of a tree. -/
def render : Tree → Except RenderError String
  | node _ (.terminal t) _ => .ok t.text
  | node _ (.rule .block) [condition, body] => do
    let condition ← render condition
    let body ← render body
    return blockText condition body
  | node _ (.rule .block) children => .error (.arity .block 2 children.length)
  | node _ (.rule .conjunction) [a, b] => do
    let a ← render a
    let b ← render b
    return "(" ++ a ++ " and " ++ b ++ ")"
  | node _ (.rule .conjunction) children => .error (.arity .conjunction 2 children.length)
  | node _ (.rule .disjunction) [a, b] => do
    let a ← render a
    let b ← render b
    return "(" ++ a ++ " or " ++ b ++ ")"
  | node _ (.rule .disjunction) children => .error (.arity .disjunction 2 children.length)
  | node _ (.rule .negation) [a] => do
    let a ← render a
    return "(not " ++ a ++ ")"
  | node _ (.rule .negation) children => .error (.arity .negation 1 children.length)
  | node _ (.rule .adjustment) [amount] =>
    match amount.integer? with
    | some delta => .ok (adjustmentText delta)
    | none => .error (.noAdjustment .adjustment)
  | node _ (.rule .adjustment) children => .error (.arity .adjustment 1 children.length)
  | node _ (.rule (.predicate i)) [] => .error (.arity (.predicate i) 1 0)
  | node _ (.rule (.predicate _)) (node _ (.terminal (.name name)) _ :: rest) => do
    let texts ← renderAll rest
    return layoutCall name (splitComparison rest).2.isSome texts
  | node _ (.rule (.predicate i)) _ => .error (.noName (.predicate i))
  | node _ (.rule _) children => do
    let texts ← renderAll children
    return String.join texts

/-- The texts of the trees in a list, up to the first tree without a text. -/
def renderAll : List Tree → Except RenderError (List String)
  | [] => .ok []
  | t :: rest => do
    let text ← render t
    let texts ← renderAll rest
    return text :: texts

end

end Tree

end ScoreScript
