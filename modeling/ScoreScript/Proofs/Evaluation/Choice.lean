import Mathlib.Data.List.FinRange
import ScoreScript.Proofs.Evaluation.CallLogs
import ScoreScript.Proofs.Result
import ScoreScript.Script.Basic

/-!
# Choosing and scoring

The greatest score is looked for twice.  The choice among candidates scores them as it goes and keeps
the best score with its position; a report has all scores first, and then keeps a position in them.
Both are compared with one loop over scores, whose invariant says that the choice so far is the first
greatest of the scores seen so far.

* `FirstGreatest`, `IsChoice` — what is to be chosen among scores;
* `FirstGreatest.concat_of_lt`, `FirstGreatest.concat_of_le` — a score that comes at the end;
* `isChoice_better`, `isChoice_bestAmong` — one more score, and all of them;
* `map_topPosition` — keeping a position comes to the same as keeping the score too;
* `bestFrom_result`, `scoresOf_result` — both loops over candidates come down to their scores;
* `Script.choice_agrees_with_scores` — the choice, the decision and the report in terms of the scores.
-/

namespace ScoreScript

variable {S A F : Type}

/-! ### Among scores -/

/-- The greatest of some scores, at the first position where it stands. -/
structure FirstGreatest (scores : List Int) (index : Nat) (value : Int) : Prop where
  getElem?_eq : scores[index]? = some value
  le : ∀ v ∈ scores, v ≤ value
  lt : ∀ j < index, ∀ v, scores[j]? = some v → v < value

/-- The first greatest of some scores, and nothing only when there are none. -/
def IsChoice (scores : List Int) : Option (Nat × Int) → Prop
  | none => scores = []
  | some (index, value) => FirstGreatest scores index value

namespace FirstGreatest

variable {scores : List Int} {index : Nat} {value top : Int}

theorem lt_length (h : FirstGreatest scores index top) : index < scores.length :=
  (List.getElem?_eq_some_iff.1 h.getElem?_eq).1

/-- A greater score at the end is chosen instead. -/
theorem concat_of_lt (h : FirstGreatest scores index top) (hlt : top < value) :
    FirstGreatest (scores ++ [value]) scores.length value := by
  refine ⟨List.getElem?_concat_length, fun v hv => ?_, fun j hj v hv => ?_⟩
  · rcases List.mem_append.1 hv with hv | hv
    · exact Int.le_of_lt (Int.lt_of_le_of_lt (h.le v hv) hlt)
    · exact Int.le_of_eq (List.mem_singleton.1 hv)
  · rw [List.getElem?_append_left hj] at hv
    exact Int.lt_of_le_of_lt (h.le v (List.mem_of_getElem? hv)) hlt

/-- Any other score at the end changes nothing, an equal one included. -/
theorem concat_of_le (h : FirstGreatest scores index top) (hle : value ≤ top) :
    FirstGreatest (scores ++ [value]) index top := by
  have hindex := h.lt_length
  refine ⟨?_, fun v hv => ?_, fun j hj v hv => ?_⟩
  · rw [List.getElem?_append_left hindex]
    exact h.getElem?_eq
  · rcases List.mem_append.1 hv with hv | hv
    · exact h.le v hv
    · rw [List.mem_singleton.1 hv]
      exact hle
  · rw [List.getElem?_append_left (Nat.lt_trans hj hindex)] at hv
    exact h.lt j hj v hv

end FirstGreatest

/-- The step: one more score comes after those seen. -/
theorem isChoice_better {seen : List Int} {best : Option (Nat × Int)} (h : IsChoice seen best)
    (value : Int) : IsChoice (seen ++ [value]) (better best seen.length value) := by
  cases best with
  | none =>
    have hseen : seen = [] := h
    subst hseen
    refine ⟨rfl, fun v hv => ?_, fun j hj => absurd hj (Nat.not_lt_zero j)⟩
    exact Int.le_of_eq (List.mem_singleton.1 hv)
  | some pair =>
    obtain ⟨index, top⟩ := pair
    have hfirst : FirstGreatest seen index top := h
    by_cases htop : top < value
    · rw [better, if_pos htop]
      exact hfirst.concat_of_lt htop
    · rw [better, if_neg htop]
      exact hfirst.concat_of_le (Int.not_lt.1 htop)

/-- The best of a choice made so far and scores counted from `index`. -/
def bestAmong (best : Option (Nat × Int)) (index : Nat) : List Int → Option (Nat × Int)
  | [] => best
  | value :: rest => bestAmong (better best index value) (index + 1) rest

/-- The run: what is chosen in the end is a choice among all scores. -/
theorem isChoice_bestAmong {seen : List Int} {best : Option (Nat × Int)} (h : IsChoice seen best)
    (scores : List Int) : IsChoice (seen ++ scores) (bestAmong best seen.length scores) := by
  induction scores generalizing seen best with
  | nil =>
    rw [List.append_nil]
    exact h
  | cons value rest ih =>
    have hrest := ih (isChoice_better h value)
    rw [List.length_append, List.length_singleton, List.append_assoc] at hrest
    exact hrest

/-! ### Positions -/

/-- A position with the score that stands there. -/
def entryAt (scores : List Int) (i : Fin scores.length) : Nat × Int :=
  (i.val, scores.get i)

theorem map_prefer (scores : List Int) (chosen : Option (Fin scores.length))
    (next : Fin scores.length) :
    (prefer scores chosen next).map (entryAt scores) =
      better (chosen.map (entryAt scores)) next (scores.get next) := by
  cases chosen with
  | none => rfl
  | some top =>
    show _ = if scores.get top < scores.get next then _ else _
    by_cases h : scores.get top < scores.get next
    · rw [prefer, if_pos h, if_pos h]
      rfl
    · rw [prefer, if_neg h, if_neg h]
      rfl

/-- The two loops in step, over positions that count up from `index`. -/
theorem map_foldl_prefer (scores : List Int) (positions : List (Fin scores.length)) (index : Nat)
    (h : positions.map Fin.val = List.range' index positions.length)
    (chosen : Option (Fin scores.length)) :
    (positions.foldl (prefer scores) chosen).map (entryAt scores) =
      bestAmong (chosen.map (entryAt scores)) index (positions.map scores.get) := by
  induction positions generalizing index chosen with
  | nil => rfl
  | cons next rest ih =>
    rw [List.map_cons, List.length_cons, List.range'_succ, List.cons.injEq] at h
    obtain ⟨rfl, hrest⟩ := h
    rw [List.foldl_cons, ih (next.val + 1) hrest, map_prefer]
    rfl

theorem map_topPosition (scores : List Int) :
    (topPosition scores).map (entryAt scores) = bestAmong none 0 scores := by
  have hpositions : (List.finRange scores.length).map Fin.val =
      List.range' 0 (List.finRange scores.length).length := by
    rw [List.map_coe_finRange_eq_range, List.length_finRange, List.range_eq_range']
  rw [topPosition, map_foldl_prefer scores _ 0 hpositions none, List.map_get_finRange]
  rfl

example : topPosition [-2, 3, 3] = some 1 := by decide

/-! ### Among candidates -/

section Candidates

variable (score : A → Run Int) (candidates : List A)

theorem scoresOf_result :
    (scoresOf score candidates).result = candidates.mapM fun a => (score a).result := by
  induction candidates with
  | nil => rfl
  | cons a rest ih =>
    rw [scoresOf, Run.result_bind, List.mapM_cons]
    apply bind_congr
    intro value
    rw [Run.result_bind, ih]
    rfl

/-- Choosing while scoring comes to the same as scoring first. -/
theorem bestFrom_result (best : Option (Nat × Int)) (index : Nat) :
    (bestFrom score best index candidates).result =
      (candidates.mapM fun a => (score a).result).map (bestAmong best index) := by
  induction candidates generalizing best index with
  | nil => rfl
  | cons a rest ih =>
    rw [bestFrom, Run.result_bind, List.mapM_cons]
    cases (score a).result with
    | error e => rfl
    | ok value =>
      show (bestFrom score (better best index value) (index + 1) rest).result = _
      rw [ih]
      cases (rest.mapM fun a => (score a).result) <;> rfl

theorem Run.visited_bind_pure {α β : Type} (x : Run α) (f : α → β) :
    (x >>= fun value => pure (f value)).visited = x.visited := by
  show (x.andThen _).visited = x.visited
  cases h : x.result with
  | error e => rw [andThen_error h]
  | ok value =>
    rw [andThen_ok h]
    exact List.append_nil _

/-- Where all candidates have scores, the nodes met are those that each of them meets. -/
theorem scoresOf_visited {scores : List Int}
    (h : List.Forall₂ (fun a value => (score a).result = .ok value) candidates scores) :
    (scoresOf score candidates).visited = (candidates.map fun a => (score a).visited).flatten := by
  induction h with
  | nil => rfl
  | @cons a value rest values ha _ ih =>
    show ((score a).andThen _).visited = _
    rw [Run.andThen_ok ha, Run.visited_bind_pure, ih, List.map_cons, List.flatten_cons]

end Candidates

/-! ### Scripts -/

namespace Script

variable {script : Script S A} {s : S} {candidates : List A} {scores : List Int}

/-- The log of tracing a candidate that has a score. -/
def callLog (script : Script S A) (s : S) (a : A) : CallLog :=
  CallLog.ofVisits (script.score s a).visited

/-- Traces have the scores that scoring without a trace has. -/
theorem map_trace
    (h : List.Forall₂ (fun a value => (script.score s a).result = .ok value) candidates scores) :
    candidates.map (fun a => (script.trace s a).result) =
      (scores.zip (candidates.map (script.callLog s))).map .ok := by
  induction h with
  | nil => rfl
  | @cons a value rest values ha _ ih =>
    have htrace : (script.trace s a).result = .ok (value, script.callLog s a) := by
      show (script.score s a).result.map _ = _
      rw [ha]
      rfl
    rw [List.map_cons, htrace, ih]
    rfl

theorem report_of_scores
    (h : List.Forall₂ (fun a value => (script.score s a).result = .ok value) candidates scores) :
    (script.report s candidates).result =
      .ok ⟨scores, topPosition scores, CallLog.union (candidates.map (script.callLog s))⟩ := by
  have hlog : CallLog.ofVisits (scoresOf (script.score s) candidates).visited =
      CallLog.union (candidates.map (script.callLog s)) := by
    rw [scoresOf_visited (script.score s) candidates h, CallLog.ofVisits_flatten, List.map_map]
    rfl
  show (scoresOf (script.score s) candidates).result.map _ = _
  rw [scoresOf_result, Result.mapM_eq_ok_iff.2 h, hlog]
  rfl

/-- What is decided on is the candidate that is chosen. -/
theorem decide_of_best {index : Nat} {value : Int} {a : A}
    (hbest : (script.best s candidates).result = .ok (some (index, value)))
    (ha : candidates[index]? = some a) (fallback : S → F) :
    (script.decide s candidates fallback).result = .ok (.action index a value) := by
  rw [decide, Run.result_bind, hbest]
  simp only [bind, Except.bind, ha]
  rfl

/-- **Choosing agrees with scoring.**  If all candidates have scores, then without candidates nothing
is chosen and the decision is the fallback; otherwise the first candidate with the greatest score is
chosen and decided on.  The report has all scores in order, the same choice, and the union of the logs
that tracing the candidates one by one gives.  If some candidate has no score, the error of the first
such candidate is what the choice, the decision and the report come to. -/
theorem choice_agrees_with_scores (script : Script S A) (s : S) (candidates : List A)
    (fallback : S → F) :
    (∃ (scores : List Int) (logs : List CallLog),
      candidates.map (fun a => (script.score s a).result) = scores.map .ok ∧
      candidates.map (fun a => (script.trace s a).result) = (scores.zip logs).map .ok ∧
      logs.length = scores.length ∧
      (candidates = [] ∧ (script.best s candidates).result = .ok none ∧
          (script.decide s candidates fallback).result = .ok (.fallback (fallback s)) ∧
          (script.report s candidates).result = .ok ⟨scores, none, CallLog.union logs⟩ ∨
        ∃ (index : Fin scores.length) (a : A), candidates[index]? = some a ∧
          FirstGreatest scores index (scores.get index) ∧
          (script.best s candidates).result = .ok (some (index.val, scores.get index)) ∧
          (script.decide s candidates fallback).result =
            .ok (.action index a (scores.get index)) ∧
          (script.report s candidates).result =
            .ok ⟨scores, some index, CallLog.union logs⟩)) ∨
    ∃ (index : Nat) (a : A) (e : EvalError), candidates[index]? = some a ∧
      (script.score s a).result = .error e ∧
      (∀ j < index, ∀ b, candidates[j]? = some b → ∃ value, (script.score s b).result = .ok value) ∧
      (script.best s candidates).result = .error e ∧
      (script.decide s candidates fallback).result = .error e ∧
      (script.report s candidates).result = .error e := by
  have hbest := bestFrom_result (script.score s) candidates none 0
  rcases Result.mapM_cases (fun a => (script.score s a).result) candidates with
    ⟨scores, hall⟩ | ⟨index, a, e, ha, he, hbefore, hall⟩
  · rw [hall] at hbest
    have heach := Result.mapM_eq_ok_iff.1 hall
    have hreport := report_of_scores heach
    have hstart : IsChoice [] none := rfl
    have hchoice : IsChoice scores (bestAmong none 0 scores) := isChoice_bestAmong hstart scores
    have hlength : candidates.length = scores.length := heach.length_eq
    refine Or.inl ⟨scores, candidates.map (script.callLog s), Result.map_of_mapM_eq_ok hall,
      map_trace heach, ?_, ?_⟩
    · rw [List.length_map, hlength]
    have hbest : (script.best s candidates).result =
        .ok ((topPosition scores).map (entryAt scores)) := by
      rw [map_topPosition]
      exact hbest
    rw [← map_topPosition] at hchoice
    cases htop : topPosition scores with
    | none =>
      rw [htop] at hbest hchoice hreport
      have hscores : scores = [] := hchoice
      have hcandidates : candidates = [] := by
        apply List.eq_nil_of_length_eq_zero
        rw [hlength, hscores, List.length_nil]
      refine Or.inl ⟨hcandidates, hbest, ?_, hreport⟩
      rw [decide, Run.result_bind, hbest]
      rfl
    | some index =>
      rw [htop] at hbest hchoice hreport
      have hindex : index.val < candidates.length := by
        rw [hlength]
        exact index.isLt
      have ha := List.getElem?_eq_getElem hindex
      exact Or.inr ⟨index, _, ha, hchoice, hbest, decide_of_best hbest ha fallback, hreport⟩
  · rw [hall] at hbest
    refine Or.inr ⟨index, a, e, ha, he, hbefore, hbest, ?_, ?_⟩
    · rw [decide, Run.result_bind, best, bestOf, hbest]
      rfl
    · show (scoresOf (script.score s) candidates).result.map _ = _
      rw [scoresOf_result, hall]
      rfl

end Script

end ScoreScript
