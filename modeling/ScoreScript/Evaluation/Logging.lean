import ScoreScript.Evaluation.Score

/-!
# Scoring into a log

While blocks are scored, the nodes that are met can be noted.  Every part of the evaluation is then
handed the log that the parts before it have left; without a log nothing is noted.

* `Logging` — computations that are handed a log or none;
* `Condition.runLogging`, `scoreLogging` — a condition, and the score of blocks;
* `Run.into` — a run whose visited nodes are noted one after another;
* `Condition.runLogging_eq`, `scoreLogging_eq` — this is what scoring into a log comes to.
-/

namespace ScoreScript

variable {α β : Type}

/-- The log that is left, if there is one, the calls made, and the result. -/
structure Logged (α : Type) where
  log : Option CallLog
  calls : List Call
  result : Except EvalError α

/-- A computation that is handed a log, if there is one. -/
def Logging (α : Type) := Option CallLog → Logged α

namespace Logging

/-- Nothing is noted and nothing is called. -/
def lift (result : Except EvalError α) : Logging α := fun log => ⟨log, [], result⟩

/-- A node is noted. -/
def note (id : NodeId) : Logging Unit := fun log => ⟨log.map (CallLog.insert id), [], .ok ()⟩

/-- One computation after another, on the log that the first one leaves.  After an error there is no
other. -/
def andThen (x : Logging α) (f : α → Logging β) : Logging β := fun log =>
  let first := x log
  match first.result with
  | .error error => ⟨first.log, first.calls, .error error⟩
  | .ok value =>
    let second := f value first.log
    ⟨second.log, first.calls ++ second.calls, second.result⟩

instance : Monad Logging where
  pure value := lift (.ok value)
  bind := andThen

end Logging

/-! ### Conditions and blocks -/

/-- A call, whose answer has to be of the declared kind. -/
def Call.runLogging (answers : Answers) (c : Call) : Logging Literal := fun log =>
  let run := c.run answers
  ⟨log, run.calls, run.result⟩

/-- A condition.  Its node is noted first; a part that is not evaluated notes nothing. -/
def Condition.runLogging (answers : Answers) : Condition → Logging Bool
  | .call id c => do
    .note id
    let value ← c.runLogging answers
    .lift (asTruth c.predicate.name value).result
  | .compare id c op value => do
    .note id
    let actual ← c.runLogging answers
    .lift (asComparison c.predicate.name actual op value).result
  | .and id a b => do
    .note id
    let first ← a.runLogging answers
    if first then b.runLogging answers else pure false
  | .or id a b => do
    .note id
    let first ← a.runLogging answers
    if first then pure true else b.runLogging answers
  | .not id a => do
    .note id
    let inner ← a.runLogging answers
    pure !inner

/-- The score of blocks on top of a total. -/
def scoreLoggingFrom (answers : Answers) (total : Int) : List Block → Logging Int
  | [] => pure total
  | b :: rest => do
    .note b.id
    let holds ← b.condition.runLogging answers
    let total ← if holds then .lift (adjust b.id total b.delta).result else pure total
    scoreLoggingFrom answers total rest

/-- The score of blocks. -/
def scoreLogging (answers : Answers) (blocks : List Block) : Logging Int :=
  scoreLoggingFrom answers 0 blocks

/-! ### Runs into a log -/

/-- The log with more nodes. -/
def CallLog.extend (log : CallLog) (visited : List NodeId) : CallLog :=
  visited.foldl (fun log id => log.insert id) log

/-- The run, its visited nodes being noted one after another. -/
def Run.into (run : Run α) : Logging α := fun log =>
  ⟨log.map fun log => log.extend run.visited, run.calls, run.result⟩

namespace Run

/-- One run after another into the same log. -/
theorem into_bind (x : Run α) (f : α → Run β) :
    (x >>= f).into = x.into >>= fun value => (f value).into := by
  funext log
  show (x.andThen f).into log = Logging.andThen x.into (fun value => (f value).into) log
  cases h : x.result with
  | error e => simp only [andThen_error h, into, Logging.andThen, h]
  | ok value =>
    have hlog : log.map (fun log => log.extend (x.visited ++ (f value).visited)) =
        (log.map fun log => log.extend x.visited).map fun log => log.extend (f value).visited := by
      cases log with
      | none => rfl
      | some log => exact congrArg some List.foldl_append
    simp only [andThen_ok h, into, Logging.andThen, h, hlog]

/-- A run that meets nothing. -/
theorem Silent.into_eq {run : Run α} (h : run.Silent) : run.into = Logging.lift run.result := by
  funext log
  rw [into, Logging.lift, h.visited_eq, h.calls_eq]
  cases log with
  | none => rfl
  | some log => rfl

theorem into_visit (id : NodeId) : (visit id).into = Logging.note id :=
  rfl

theorem into_pure (value : α) : (pure value : Run α).into = pure value :=
  (silent_pure value).into_eq

end Run

/-- **Conditions.**  A condition that is run on a log leaves its visited nodes there; with a log and
without one it makes the same calls and comes to the same result. -/
theorem Condition.runLogging_eq (answers : Answers) (c : Condition) :
    c.runLogging answers = (c.run answers).into := by
  have hcall : ∀ call : Call, call.runLogging answers = (call.run answers).into := by
    intro call
    funext log
    cases log with
    | none => rfl
    | some log => rfl
  induction c with
  | call id c =>
    rw [runLogging, run, Run.into_bind, Run.into_bind, ← hcall]
    simp only [(silent_asTruth _ _).into_eq, Run.into_visit]
  | compare id c op value =>
    rw [runLogging, run, Run.into_bind, Run.into_bind, ← hcall]
    simp only [(silent_asComparison _ _ _ _).into_eq, Run.into_visit]
  | and id a b iha ihb =>
    rw [runLogging, run, Run.into_bind, Run.into_bind, Run.into_visit, iha, ihb]
    simp only [apply_ite, Run.into_pure]
  | or id a b iha ihb =>
    rw [runLogging, run, Run.into_bind, Run.into_bind, Run.into_visit, iha, ihb]
    simp only [apply_ite, Run.into_pure]
  | not id a ih =>
    rw [runLogging, run, Run.into_bind, Run.into_bind, Run.into_visit, ih]
    simp only [Run.into_pure]

theorem scoreLoggingFrom_eq (answers : Answers) (total : Int) (blocks : List Block) :
    scoreLoggingFrom answers total blocks = (scoreFrom answers total blocks).into := by
  induction blocks generalizing total with
  | nil => rw [scoreLoggingFrom, scoreFrom, Run.into_pure]
  | cons b rest ih =>
    rw [scoreLoggingFrom, scoreFrom, Run.into_bind, Run.into_visit, b.condition.runLogging_eq]
    simp only [Run.into_bind, apply_ite, Run.into_pure, (silent_adjust _ _ _).into_eq, ih]

/-- **Blocks.**  Scoring into a log leaves the visited nodes there; with a log and without one it makes
the same calls and comes to the same result. -/
theorem scoreLogging_eq (answers : Answers) (blocks : List Block) :
    scoreLogging answers blocks = (scoreBlocks answers blocks).into :=
  scoreLoggingFrom_eq answers 0 blocks

end ScoreScript
