import ScoreScript.Grammar.Sampler
import ScoreScript.Tree.Traversal

/-!
# Why no script comes about

A script comes from a tree in stages, and each stage has its own reasons to refuse.

* `RenderError` — the tree has no text;
* `CompileFault`, `CompileError` — the text is no legal script over the catalog;
* `GenerateError` — no tree could be grown, or its tree was refused;
* `GenerateError.isRetryable` — another tree may succeed after limits, text and legality, but never
  after a defect of the grammar.
-/

namespace ScoreScript

/-- Why a tree has no text. -/
inductive RenderError where
  | arity (rule : Rule) (expected found : Nat)
  | noAdjustment (rule : Rule)
  | noName (rule : Rule)
  deriving DecidableEq

/-- The wording of an error. -/
def RenderError.message : RenderError → String
  | arity rule expected found => s!"{rule.text} expects {expected} children, found {found}"
  | noAdjustment rule =>
    s!"{rule.text} node has malformed children: expected a numeric score adjustment"
  | noName rule =>
    s!"{rule.text} node has malformed children: first child must be the predicate name"

/-- Why a tree is no legal script. -/
inductive CompileFault where
  | unknownPredicate (name : String)
  | arity (name : String) (expected found : Nat)
  | illegalLiteral (kind : Kind) (value : Literal)
  | illegalComparator (kind : Kind) (op : Comparator)
  | comparedBoolean (name : String)
  | missingComparison (name : String) (kind : Kind)
  | illegalScore (delta range : Int)
  | malformed (rule : Rule)
  deriving DecidableEq

/-- The wording of a fault. -/
def CompileFault.message : CompileFault → String
  | unknownPredicate name => s!"unknown predicate '{name}'"
  | arity name expected found => s!"predicate '{name}' expects {expected} arguments, found {found}"
  | illegalLiteral kind value =>
    s!"literal {value.text} is outside the legal set of {kind.typeName}"
  | illegalComparator kind op => s!"operator '{op.text}' cannot compare {kind.typeName}"
  | comparedBoolean name => s!"boolean predicate '{name}' cannot be compared"
  | missingComparison name kind =>
    s!"predicate '{name}' returns {kind.typeName} and needs a comparison"
  | illegalScore delta range => s!"score adjustment {delta} is outside [-{range}, {range}] or zero"
  | malformed rule => s!"malformed {rule.text} node"

/-- A fault with the text of the script that was refused. -/
structure CompileError where
  fault : CompileFault
  rendered : String
  deriving DecidableEq

/-- The wording of an error. -/
def CompileError.message (e : CompileError) : String :=
  e.fault.message ++ "\n--- rejected script ---\n" ++ e.rendered

/-- Why no script was generated. -/
inductive GenerateError where
  | missingRule (rule : Rule)
  | sample (rule : Rule) (error : SampleError)
  | limit (error : LimitError)
  | render (error : RenderError)
  | compile (error : CompileError)
  | exhausted (attempts : Nat) (last : GenerateError)

namespace GenerateError

/-- The wording of an error. -/
def message : GenerateError → String
  | missingRule rule => s!"rule {rule.text} has no registered productions"
  | sample rule error => s!"sampling failed while expanding {rule.text}: {error.message}"
  | limit error => error.message
  | render error => error.message
  | compile error => error.message
  | exhausted attempts last =>
    s!"no valid script after {attempts} attempts; last error: " ++ last.message

/-- Whether a fresh tree may succeed. -/
def isRetryable : GenerateError → Bool
  | limit _ | render _ | compile _ => true
  | missingRule _ | sample _ _ | exhausted _ _ => false

theorem isRetryable_exhausted (attempts : Nat) (last : GenerateError) :
    (exhausted attempts last).isRetryable = false := rfl

end GenerateError

end ScoreScript
