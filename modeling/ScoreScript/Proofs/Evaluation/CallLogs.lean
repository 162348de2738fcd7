import Mathlib.Data.List.Sort
import ScoreScript.Evaluation.Run

/-!
# Call logs as sets

A call log lists nodes in ascending order, each of them once, so it is determined by its members.  Logs
can therefore be united, and the nodes in them replaced by others.

* `CallLog.pairwise_ofVisits`, `CallLog.eq_ofVisits` — logs ascend, and their members determine them;
* `CallLog.image`, `CallLog.ofVisits_map` — the log of visits to nodes with other numbers;
* `CallLog.union`, `CallLog.ofVisits_flatten` — the log of several runs.
-/

namespace ScoreScript.CallLog

theorem pairwise_insert {id : NodeId} {log : CallLog} (h : log.Pairwise (· < ·)) :
    (insert id log).Pairwise (· < ·) := by
  induction log with
  | nil => exact List.pairwise_singleton _ _
  | cons first rest ih =>
    obtain ⟨hfirst, hrest⟩ := List.pairwise_cons.1 h
    rw [insert]
    split
    · rename_i hlt
      refine List.pairwise_cons.2 ⟨fun x hx => ?_, h⟩
      rcases List.mem_cons.1 hx with rfl | hx
      · exact hlt
      · exact UInt32.lt_trans hlt (hfirst x hx)
    · rename_i hnot
      split
      · exact h
      · rename_i hne
        refine List.pairwise_cons.2 ⟨fun x hx => ?_, ih hrest⟩
        rcases mem_insert.1 hx with rfl | hx
        · exact UInt32.lt_of_le_of_ne (UInt32.not_lt.1 hnot) (Ne.symm hne)
        · exact hfirst x hx

/-- Logs ascend. -/
theorem pairwise_ofVisits (visited : List NodeId) : (ofVisits visited).Pairwise (· < ·) := by
  have general : ∀ log : CallLog, log.Pairwise (· < ·) →
      (visited.foldl (fun log id => insert id log) log).Pairwise (· < ·) := by
    induction visited with
    | nil => exact fun log h => h
    | cons id rest ih => exact fun log h => ih _ (pairwise_insert h)
  exact general [] .nil

/-- An ascending list is the log of all visits to its members, in whatever order and however often. -/
theorem eq_ofVisits {log : CallLog} {visited : List NodeId} (hlog : log.Pairwise (· < ·))
    (h : ∀ x, x ∈ log ↔ x ∈ visited) : log = ofVisits visited := by
  refine hlog.eq_of_mem_iff (pairwise_ofVisits visited) fun x => ?_
  rw [h x, mem_ofVisits]

/-! ### Other numbers -/

/-- The log in which every node is replaced by its image. -/
def image (f : NodeId → NodeId) (log : CallLog) : CallLog :=
  ofVisits (log.map f)

theorem mem_image {f : NodeId → NodeId} {log : CallLog} {x : NodeId} :
    x ∈ image f log ↔ ∃ y ∈ log, f y = x := by
  rw [image, mem_ofVisits, List.mem_map]

theorem ofVisits_map (f : NodeId → NodeId) (visited : List NodeId) :
    ofVisits (visited.map f) = image f (ofVisits visited) := by
  symm
  refine eq_ofVisits (pairwise_ofVisits _) fun x => ?_
  rw [mem_image, List.mem_map]
  simp only [mem_ofVisits]

/-! ### Several logs -/

/-- The nodes of all logs in a list. -/
def union (logs : List CallLog) : CallLog :=
  ofVisits logs.flatten

theorem mem_union {logs : List CallLog} {x : NodeId} : x ∈ union logs ↔ ∃ log ∈ logs, x ∈ log := by
  rw [union, mem_ofVisits, List.mem_flatten]

/-- The log of all visits is the union of the logs. -/
theorem ofVisits_flatten (visits : List (List NodeId)) :
    ofVisits visits.flatten = union (visits.map ofVisits) := by
  symm
  refine eq_ofVisits (pairwise_ofVisits _) fun x => ?_
  rw [mem_union, List.mem_flatten]
  simp only [List.mem_map, exists_exists_and_eq_and, mem_ofVisits]

end ScoreScript.CallLog
