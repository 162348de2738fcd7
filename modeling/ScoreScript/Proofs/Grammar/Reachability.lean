import ScoreScript.Grammar.Reachable
import Mathlib.Data.List.Perm.Subperm

/-!
# Reachability

A rule is reached from a root when a chain of mentions leads from the root to it.  The breadth-first
search finds these rules and no others, because it never runs out of steps: the rules that are known
or queued are distinct, and there are no more of them than the root and the mentions of the table.

* `Grammar.Reaches` — a chain of mentions leads from a root to a rule;
* `Grammar.WorksOff` — the search without a bound on its steps;
* `Grammar.Explores.step` — what a step preserves, and `Grammar.worksOff_reachable` — the search ends;
* `Grammar.mem_reachable_iff` — the rules found are those that are reached;
* `Grammar.alternatives_ne_nil_of_validate` — in a valid grammar they all have alternatives.
-/

namespace ScoreScript

namespace Grammar

/-- A chain of mentions leads from the root to a rule. -/
inductive Reaches (g : Grammar) (root : Rule) : Rule → Prop
  | root : Reaches g root root
  | mention {r r' : Rule} : Reaches g root r → r' ∈ g.mentions r → Reaches g root r'

/-- Every mention of a rule in the table. -/
def allMentions (g : Grammar) : List Rule :=
  g.table.flatMap fun entry => entry.2.flatMap Production.rules

theorem lookup_mem {table : RuleTable} {r : Rule} {alternatives : List Production}
    (h : lookup r table = some alternatives) : (r, alternatives) ∈ table := by
  induction table with
  | nil => simp [lookup] at h
  | cons first rest ih =>
    obtain ⟨key, as⟩ := first
    by_cases hkey : key = r
    · simp only [lookup, hkey, if_true, Option.some.injEq] at h
      rw [hkey, h]
      exact List.mem_cons_self
    · simp only [lookup, hkey, if_false] at h
      exact List.mem_cons_of_mem _ (ih h)

theorem mentions_subset_allMentions (g : Grammar) (r : Rule) : g.mentions r ⊆ g.allMentions := by
  intro r' hr'
  rw [mentions, alternatives, alternatives?] at hr'
  cases hl : lookup r g.table with
  | none => simp [hl] at hr'
  | some as =>
    rw [hl, Option.getD_some] at hr'
    exact List.mem_flatMap.2 ⟨(r, as), lookup_mem hl, hr'⟩

/-! ### The queue -/

theorem mem_enqueue {known queue found : List Rule} {r : Rule} :
    r ∈ enqueue known queue found ↔ r ∈ queue ∨ (r ∈ found ∧ r ∉ known) := by
  induction found generalizing queue with
  | nil => simp [enqueue]
  | cons r' rest ih =>
    rw [enqueue]
    split
    · rw [ih, List.mem_cons]
      grind
    · rw [ih, List.mem_append, List.mem_singleton, List.mem_cons]
      grind

/-- What is known or queued afterwards was so before or has been found. -/
theorem mem_append_enqueue {known queue found : List Rule} {r : Rule} :
    r ∈ known ++ enqueue known queue found ↔ r ∈ known ++ queue ∨ r ∈ found := by
  rw [List.mem_append, mem_enqueue, List.mem_append]
  grind

/-- What joins the queue has been found and was neither known nor queued. -/
theorem exists_enqueue_eq (known queue found : List Rule) :
    ∃ new, enqueue known queue found = queue ++ new ∧ ∀ r ∈ new, r ∈ found ∧ r ∉ known ++ queue := by
  induction found generalizing queue with
  | nil => exact ⟨[], (List.append_nil queue).symm, fun r hr => absurd hr List.not_mem_nil⟩
  | cons first rest ih =>
    rw [enqueue]
    split
    · obtain ⟨new, heq, hnew⟩ := ih queue
      exact ⟨new, heq, fun r hr => ⟨List.mem_cons_of_mem _ (hnew r hr).1, (hnew r hr).2⟩⟩
    · rename_i hfirst
      rw [← List.mem_append] at hfirst
      obtain ⟨new, heq, hnew⟩ := ih (queue ++ [first])
      refine ⟨first :: new, by rw [heq, List.append_assoc]; rfl, fun r hr => ?_⟩
      rcases List.mem_cons.1 hr with rfl | hr
      · exact ⟨List.mem_cons_self, hfirst⟩
      · obtain ⟨hfound, hfresh⟩ := hnew r hr
        rw [← List.append_assoc] at hfresh
        exact ⟨List.mem_cons_of_mem _ hfound, fun h => hfresh (List.mem_append_left _ h)⟩

theorem nodup_enqueue {known queue : List Rule} (found : List Rule)
    (h : (known ++ queue).Nodup) : (known ++ enqueue known queue found).Nodup := by
  induction found generalizing queue with
  | nil => exact h
  | cons r rest ih =>
    rw [enqueue]
    split
    · exact ih h
    · rename_i hnew
      rw [not_or] at hnew
      apply ih
      rw [← List.append_assoc]
      refine List.nodup_append.2 ⟨h, by simp, ?_⟩
      intro a ha b hb
      rw [List.mem_singleton.1 hb]
      rintro rfl
      exact (List.mem_append.1 ha).elim hnew.1 hnew.2

/-! ### The search -/

/-- Working off the queue, for as long as there is one, ends with the given rules. -/
inductive WorksOff (g : Grammar) : (known queue result : List Rule) → Prop
  | done (known : List Rule) : WorksOff g known [] known
  | next {known queue result : List Rule} {r : Rule} :
    WorksOff g (known ++ [r]) (enqueue (known ++ [r]) queue (g.mentions r)) result →
    WorksOff g known (r :: queue) result

/-- What a step of the search preserves holds at its end, when nothing is queued any more. -/
theorem WorksOff.preserves {g : Grammar} {Holds : List Rule → List Rule → Prop}
    (hstep : ∀ known queue r, Holds known (r :: queue) →
      Holds (known ++ [r]) (enqueue (known ++ [r]) queue (g.mentions r)))
    {known queue result : List Rule} (h : g.WorksOff known queue result)
    (hstart : Holds known queue) : Holds result [] := by
  induction h with
  | done known => exact hstart
  | next _ ih => exact ih (hstep _ _ _ hstart)

theorem WorksOff.known_prefix {g : Grammar} {known queue result : List Rule}
    (h : g.WorksOff known queue result) : known <+: result := by
  induction h with
  | done known => exact List.prefix_rfl
  | next _ ih => exact (List.prefix_append _ _).trans ih

/-- The rules that are known or queued are distinct and reached from the root, which is one of them,
and so is all that the known ones mention. -/
structure Explores (g : Grammar) (root : Rule) (known queue : List Rule) : Prop where
  nodup : (known ++ queue).Nodup
  reached : ∀ r ∈ known ++ queue, g.Reaches root r
  root_mem : root ∈ known ++ queue
  closed : ∀ r ∈ known, g.mentions r ⊆ known ++ queue

namespace Explores

variable {g : Grammar} {root r : Rule} {known queue : List Rule}

theorem start (g : Grammar) (root : Rule) : g.Explores root [] [root] where
  nodup := List.pairwise_singleton _ root
  reached := fun _ hr => List.mem_singleton.1 hr ▸ .root
  root_mem := List.mem_singleton_self root
  closed := fun _ hr => absurd hr List.not_mem_nil

/-- A step adds what the rule in front mentions to the rules that are known or queued. -/
theorem step (h : g.Explores root known (r :: queue)) :
    g.Explores root (known ++ [r]) (enqueue (known ++ [r]) queue (g.mentions r)) := by
  have hsplit : known ++ r :: queue = known ++ [r] ++ queue := by
    rw [List.append_assoc, List.singleton_append]
  obtain ⟨hnodup, hreached, hroot, hclosed⟩ := h
  rw [hsplit] at hnodup hreached hroot hclosed
  have hr : g.Reaches root r := hreached r (by simp)
  refine ⟨nodup_enqueue _ hnodup, fun x hx => ?_, mem_append_enqueue.2 (Or.inl hroot),
    fun x hx y hy => mem_append_enqueue.2 ?_⟩
  · exact (mem_append_enqueue.1 hx).elim (hreached x) (.mention hr)
  · rcases List.mem_append.1 hx with hx | hx
    · exact Or.inl (hclosed x hx hy)
    · exact Or.inr (List.mem_singleton.1 hx ▸ hy)

/-- All that is known or queued is the root or mentioned somewhere. -/
theorem subset (h : g.Explores root known queue) : known ++ queue ⊆ root :: g.allMentions := by
  intro r hr
  cases h.reached r hr with
  | root => exact List.mem_cons_self
  | mention _ hmention => exact List.mem_cons_of_mem _ (mentions_subset_allMentions g _ hmention)

/-- With one step for each rule that may still join the queue the search works it off. -/
theorem worksOff_search (steps : Nat) (h : g.Explores root known queue)
    (hsteps : (root :: g.allMentions).length ≤ steps + known.length) :
    g.WorksOff known queue (g.search steps known queue) := by
  fun_induction search g steps known queue with
  | case1 steps known => exact .done known
  | case2 queue known hne =>
    -- without steps left the known rules are all there are, so nothing can be queued
    exfalso
    have hle := (List.subperm_of_subset h.nodup h.subset).length_le
    rw [List.length_append] at hle
    have hpos : 0 < queue.length := List.length_pos_iff.2 (fun h => hne h)
    omega
  | case3 steps known r queue ih =>
    refine .next (ih h.step ?_)
    rw [List.length_append, List.length_singleton]
    omega

end Explores

/-- The search from a root ends because its queue does, not for want of steps. -/
theorem worksOff_reachable (g : Grammar) (root : Rule) :
    g.WorksOff [] [root] (g.reachable root) := by
  refine (Explores.start g root).worksOff_search g.searchSteps ?_
  rw [searchSteps, List.length_cons, List.length_nil, Nat.add_comm 1]
  exact Nat.le_refl _

/-- What is found is explored, with nothing left to explore. -/
theorem explores_reachable (g : Grammar) (root : Rule) : g.Explores root (g.reachable root) [] :=
  (worksOff_reachable g root).preserves (fun _ _ _ => Explores.step) (.start g root)

/-- The rules found from a root are those that are reached from it. -/
theorem mem_reachable_iff {g : Grammar} {root r : Rule} :
    r ∈ g.reachable root ↔ g.Reaches root r := by
  have hexplores := explores_reachable g root
  rw [← List.append_nil (g.reachable root)]
  constructor
  · exact hexplores.reached r
  · intro h
    induction h with
    | root => exact hexplores.root_mem
    | mention _ hmention ih =>
      rw [List.append_nil] at ih
      exact hexplores.closed _ ih hmention

/-- Whatever is reached in a valid grammar has alternatives. -/
theorem alternatives_ne_nil_of_validate {g : Grammar} {root r : Rule}
    (h : g.validate root = .ok ()) (hr : g.Reaches root r) : g.alternatives r ≠ [] :=
  (g.validate_eq_ok_iff root).1 h r (mem_reachable_iff.2 hr)

end Grammar

end ScoreScript
