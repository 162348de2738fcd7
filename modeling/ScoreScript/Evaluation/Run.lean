import ScoreScript.Compiled.Basic

/-!
# Runs

A run of a script records what it meets: the nodes it visits and the calls it makes, each in order,
and the result, which may be an error.

* `Run.andThen` — one run after another; after an error nothing more is recorded;
* `Run.andThen_ok`, `Run.andThen_error` — what a sequence records;
* `Run.Silent` — nothing is recorded but the result;
* `Run.result_bind` — what a sequence comes to;
* `CallLog.ofVisits` — visited nodes as an ascending list without repetitions;
* `CallLog.mem_ofVisits` — the same nodes.
-/

namespace ScoreScript

/-- What goes wrong while a script scores. -/
inductive EvalError where
  | illegalReturn (name : String) (kind : Kind) (value : Literal)
  | notBoolean (name : String) (value : Literal)
  | incomparable (name : String) (actual value : Literal)
  | scoreOverflow (id : NodeId)
  deriving DecidableEq

/-- The wording of an error. -/
def EvalError.message : EvalError → String
  | illegalReturn name kind value =>
    s!"predicate '{name}' returned {value.text}, outside the legal set of {kind.typeName}"
  | notBoolean name value => s!"boolean predicate '{name}' returned non-boolean {value.text}"
  | incomparable name actual value =>
    s!"predicate '{name}' returned {actual.text}, which cannot be compared with {value.text}"
  | scoreOverflow id => s!"score overflowed at block #{id.toNat}"

/-- The nodes visited, the calls made, and the result. -/
structure Run (α : Type) where
  visited : List NodeId
  calls : List Call
  result : Except EvalError α

namespace Run

variable {α β : Type}

/-- The run that meets nothing. -/
def succeed (value : α) : Run α := ⟨[], [], .ok value⟩

/-- The run that meets nothing and fails. -/
def fail (error : EvalError) : Run α := ⟨[], [], .error error⟩

/-- The run that visits a node. -/
def visit (id : NodeId) : Run Unit := ⟨[id], [], .ok ()⟩

/-- One run after another.  After an error there is no other. -/
def andThen (x : Run α) (f : α → Run β) : Run β :=
  match x.result with
  | .error error => ⟨x.visited, x.calls, .error error⟩
  | .ok value =>
    let y := f value
    ⟨x.visited ++ y.visited, x.calls ++ y.calls, y.result⟩

instance : Monad Run where
  pure := succeed
  bind := andThen

theorem andThen_ok {x : Run α} {value : α} (h : x.result = .ok value) (f : α → Run β) :
    x.andThen f =
      ⟨x.visited ++ (f value).visited, x.calls ++ (f value).calls, (f value).result⟩ := by
  simp [andThen, h]

theorem andThen_error {x : Run α} {error : EvalError} (h : x.result = .error error)
    (f : α → Run β) : x.andThen f = ⟨x.visited, x.calls, .error error⟩ := by
  simp [andThen, h]

/-- Nothing is met: no node is visited and no call is made. -/
structure Silent (x : Run α) : Prop where
  visited_eq : x.visited = []
  calls_eq : x.calls = []

theorem silent_pure (value : α) : (pure value : Run α).Silent := ⟨rfl, rfl⟩

theorem silent_fail (error : EvalError) : (fail error : Run α).Silent := ⟨rfl, rfl⟩

theorem result_bind (x : Run α) (f : α → Run β) :
    (x >>= f).result = x.result >>= fun value => (f value).result := by
  show (x.andThen f).result = _
  cases h : x.result with
  | error error =>
    rw [andThen_error h]
    rfl
  | ok value =>
    rw [andThen_ok h]
    rfl

end Run

/-! ### Call logs -/

/-- The nodes of a run, ascending and without repetitions. -/
abbrev CallLog := List NodeId

namespace CallLog

/-- The log with one more node. -/
def insert (id : NodeId) : CallLog → CallLog
  | [] => [id]
  | first :: rest =>
    if id < first then id :: first :: rest
    else if id = first then first :: rest
    else first :: insert id rest

/-- The log of visited nodes. -/
def ofVisits (visited : List NodeId) : CallLog :=
  visited.foldl (fun log id => insert id log) []

theorem mem_insert {id x : NodeId} {log : CallLog} : x ∈ insert id log ↔ x = id ∨ x ∈ log := by
  induction log with
  | nil => simp [insert]
  | cons first rest ih =>
    simp only [insert]
    split
    · simp
    · split
      · rename_i heq
        subst heq
        simp
      · simp only [List.mem_cons, ih]
        grind

theorem mem_ofVisits {x : NodeId} {visited : List NodeId} : x ∈ ofVisits visited ↔ x ∈ visited := by
  have general : ∀ log : CallLog,
      x ∈ visited.foldl (fun log id => insert id log) log ↔ x ∈ visited ∨ x ∈ log := by
    induction visited with
    | nil => simp
    | cons id rest ih =>
      intro log
      rw [List.foldl_cons, ih, mem_insert, List.mem_cons]
      grind
  simpa [ofVisits] using general []

end CallLog

end ScoreScript
