import ScoreScript.Evaluation.Run

/-!
# Scoring

A compiled script scores by going through its blocks in order: it starts at 0 and adds the
adjustment of every block whose condition holds.  What predicates answer is given as a function of
their position and the literals passed.

* `Call.run` — a call; its answer has to be of the declared kind;
* `Condition.run` — a condition; `and` and `or` do without the second part when the first decides;
* `scoreBlocks` — the score; a score that no 64-bit integer holds is an error;
* `bestOf` — the choice among candidates: the first one with the greatest score;
* `reportOf` — their scores, and the same choice made among the scores.
-/

namespace ScoreScript

/-- What the predicate at a position answers to the literals of a call. -/
abbrev Answers := Nat → List Literal → Literal

/-! ### Conditions -/

/-- A call, whose answer has to be of the declared kind. -/
def Call.run (answers : Answers) (c : Call) : Run Literal :=
  let value := answers c.target c.arguments
  ⟨[], [c],
    if c.predicate.returns.contains value then .ok value
    else .error (.illegalReturn c.predicate.name c.predicate.returns value)⟩

/-- The truth value that a call without a comparison answers. -/
def asTruth (name : String) (value : Literal) : Run Bool :=
  match value.bool? with
  | some b => pure b
  | none => .fail (.notBoolean name value)

/-- Whether an answer compares with a literal as an operator says. -/
def asComparison (name : String) (actual : Literal) (op : Comparator) (value : Literal) : Run Bool :=
  match Literal.compare op actual value with
  | some b => pure b
  | none => .fail (.incomparable name actual value)

theorem silent_asTruth (name : String) (value : Literal) : (asTruth name value).Silent := by
  unfold asTruth
  cases value.bool? with
  | none => exact Run.silent_fail _
  | some b => exact Run.silent_pure b

theorem silent_asComparison (name : String) (actual : Literal) (op : Comparator) (value : Literal) :
    (asComparison name actual op value).Silent := by
  unfold asComparison
  cases Literal.compare op actual value with
  | none => exact Run.silent_fail _
  | some b => exact Run.silent_pure b

/-- A condition. -/
def Condition.run (answers : Answers) : Condition → Run Bool
  | .call id c => do
    .visit id
    let value ← c.run answers
    asTruth c.predicate.name value
  | .compare id c op value => do
    .visit id
    let actual ← c.run answers
    asComparison c.predicate.name actual op value
  | .and id a b => do
    .visit id
    let first ← a.run answers
    if first then b.run answers else pure false
  | .or id a b => do
    .visit id
    let first ← a.run answers
    if first then pure true else b.run answers
  | .not id a => do
    .visit id
    let inner ← a.run answers
    pure !inner

/-! ### Blocks -/

/-- Whether a 64-bit signed integer holds a score. -/
def isScore (n : Int) : Bool :=
  -2 ^ (63 : Nat) ≤ n && n < 2 ^ (63 : Nat)

/-- The total with the adjustment of a block. -/
def adjust (id : NodeId) (total delta : Int) : Run Int :=
  if isScore (total + delta) then pure (total + delta) else .fail (.scoreOverflow id)

/-- The score of blocks on top of a total. -/
def scoreFrom (answers : Answers) (total : Int) : List Block → Run Int
  | [] => pure total
  | b :: rest => do
    .visit b.id
    let holds ← b.condition.run answers
    let total ← if holds then adjust b.id total b.delta else pure total
    scoreFrom answers total rest

/-- The score of blocks. -/
def scoreBlocks (answers : Answers) (blocks : List Block) : Run Int :=
  scoreFrom answers 0 blocks

theorem silent_adjust (id : NodeId) (total delta : Int) : (adjust id total delta).Silent := by
  unfold adjust
  split
  · exact Run.silent_pure _
  · exact Run.silent_fail _

theorem adjust_of_small {id : NodeId} {total delta : Int}
    (h : (total + delta).natAbs < 2 ^ (63 : Nat)) :
    adjust id total delta = pure (total + delta) := by
  have : isScore (total + delta) = true := by
    simp only [isScore, Bool.and_eq_true, decide_eq_true_eq]
    omega
  simp [adjust, this]

/-! ### Candidates -/

variable {A : Type}

/-- The better of a choice made so far and one more candidate; the earlier one wins a tie. -/
def better (best : Option (Nat × Int)) (index : Nat) (value : Int) : Option (Nat × Int) :=
  match best with
  | none => some (index, value)
  | some (chosen, top) => if top < value then some (index, value) else some (chosen, top)

/-- The best of a choice made so far and candidates counted from `index`. -/
def bestFrom (score : A → Run Int) (best : Option (Nat × Int)) (index : Nat) :
    List A → Run (Option (Nat × Int))
  | [] => pure best
  | a :: rest => do
    let value ← score a
    bestFrom score (better best index value) (index + 1) rest

/-- The first candidate with the greatest score, and that score. -/
def bestOf (score : A → Run Int) (candidates : List A) : Run (Option (Nat × Int)) :=
  bestFrom score none 0 candidates

/-- The scores of all candidates, in order. -/
def scoresOf (score : A → Run Int) : List A → Run (List Int)
  | [] => pure []
  | a :: rest => do
    let value ← score a
    let values ← scoresOf score rest
    pure (value :: values)

/-- The position chosen so far, or the next one if its score is greater. -/
def prefer (scores : List Int) (chosen : Option (Fin scores.length)) (next : Fin scores.length) :
    Option (Fin scores.length) :=
  match chosen with
  | none => some next
  | some top => if scores.get top < scores.get next then some next else some top

/-- The first position with the greatest score. -/
def topPosition (scores : List Int) : Option (Fin scores.length) :=
  (List.finRange scores.length).foldl (prefer scores) none

/-- The scores of all candidates, the position chosen among them, and the nodes that scoring met. -/
structure Report where
  scores : List Int
  chosen : Option (Fin scores.length)
  log : CallLog

/-- The report on candidates.  The log is that of the whole run. -/
def reportOf (score : A → Run Int) (candidates : List A) : Run Report :=
  let run := scoresOf score candidates
  { run with
    result := run.result.map fun scores =>
      ⟨scores, topPosition scores, CallLog.ofVisits run.visited⟩ }

/-- A report as one line. -/
def Report.text (r : Report) : String :=
  let chosen := match r.chosen with
    | some index => "#" ++ index.val.repr ++ " = " ++ (r.scores.get index).repr
    | none => "none"
  "chosen: " ++ chosen ++ ", scores: [" ++ ", ".intercalate (r.scores.map Int.repr) ++
    "], nodes exercised: " ++ r.log.length.repr

end ScoreScript
