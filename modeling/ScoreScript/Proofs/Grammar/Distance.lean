import Mathlib.Order.Lattice.Nat
import ScoreScript.Proofs.Grammar.Reachability

/-!
# Distance from the root

The search works off rules that are nearer to the root before those that are farther away.  The queue
never holds rules of more than two distances, that of the rule in front and the next one, and all
rules that are nearer than the one in front are known.

* `Grammar.Chain` — so many mentions lead from a root to a rule;
* `Grammar.distance` — the least number of mentions;
* `Grammar.Sorts` — the order that every step preserves, `Grammar.Sorts.step`;
* `Grammar.reachable_exact` — what is found, in which order, and what the validation makes of it.
-/

namespace ScoreScript.Grammar

/-- So many mentions lead from the root to a rule. -/
inductive Chain (g : Grammar) (root : Rule) : Nat → Rule → Prop
  | root : Chain g root 0 root
  | mention {n : Nat} {r r' : Rule} :
    Chain g root n r → r' ∈ g.mentions r → Chain g root (n + 1) r'

/-- The least number of mentions that lead from the root to a rule. -/
noncomputable def distance (g : Grammar) (root r : Rule) : Nat :=
  sInf {n | g.Chain root n r}

variable {g : Grammar} {root : Rule}

theorem Reaches.exists_chain {r : Rule} (h : g.Reaches root r) : ∃ n, g.Chain root n r := by
  induction h with
  | root => exact ⟨0, .root⟩
  | mention _ hmention ih =>
    obtain ⟨n, hn⟩ := ih
    exact ⟨n + 1, .mention hn hmention⟩

theorem Chain.distance_le {n : Nat} {r : Rule} (h : g.Chain root n r) : g.distance root r ≤ n :=
  Nat.sInf_le h

theorem Reaches.chain_distance {r : Rule} (h : g.Reaches root r) :
    g.Chain root (g.distance root r) r :=
  Nat.sInf_mem h.exists_chain

/-- A mention leads one step farther away at most. -/
theorem Reaches.distance_mention_le {r r' : Rule} (h : g.Reaches root r)
    (hmention : r' ∈ g.mentions r) : g.distance root r' ≤ g.distance root r + 1 :=
  (h.chain_distance.mention hmention).distance_le

/-! ### The order of the search -/

/-- The rules that are known and then those that are queued are in order of their distance, and the
queued ones are at most one step apart. -/
structure Sorts (g : Grammar) (root : Rule) (known queue : List Rule) : Prop
    extends Explores g root known queue where
  sorted : (known ++ queue).Pairwise fun r r' => g.distance root r ≤ g.distance root r'
  span : ∀ r ∈ queue, ∀ r' ∈ queue, g.distance root r' ≤ g.distance root r + 1

namespace Sorts

variable {known queue : List Rule} {r : Rule}

theorem start (g : Grammar) (root : Rule) : g.Sorts root [] [root] where
  toExplores := .start g root
  sorted := List.pairwise_singleton _ root
  span := fun r hr r' hr' => by
    rw [List.mem_singleton.1 hr, List.mem_singleton.1 hr']
    exact Nat.le_succ _

theorem distance_front_le (h : g.Sorts root known (r :: queue)) {r' : Rule}
    (hr' : r' ∈ r :: queue) : g.distance root r ≤ g.distance root r' := by
  rcases List.mem_cons.1 hr' with rfl | hr'
  · exact Nat.le_refl _
  · exact (List.pairwise_cons.1 (List.pairwise_append.1 h.sorted).2.1).1 r' hr'

/-- A chain that is too short to lead as far as the rule in front leads to a known rule. -/
theorem mem_known (h : g.Sorts root known (r :: queue)) {n : Nat} {r' : Rule}
    (hchain : g.Chain root n r') (hlt : n < g.distance root r) : r' ∈ known := by
  induction hchain with
  | root =>
    refine (List.mem_append.1 h.root_mem).resolve_right fun hqueued => ?_
    have hfront := h.distance_front_le hqueued
    have hroot : g.distance root root ≤ 0 := Chain.root.distance_le
    omega
  | @mention n r₁ r₂ hchain hmention ih =>
    have hknown := ih (Nat.lt_of_succ_lt hlt)
    refine (List.mem_append.1 (h.closed r₁ hknown hmention)).resolve_right fun hqueued => ?_
    have hfront := h.distance_front_le hqueued
    have hle := (hchain.mention hmention).distance_le
    omega

/-- A rule that is new when the rule in front mentions it is one step farther away. -/
theorem distance_new (h : g.Sorts root known (r :: queue)) {r' : Rule} (hmention : r' ∈ g.mentions r)
    (hnew : r' ∉ known ++ r :: queue) : g.distance root r' = g.distance root r + 1 := by
  have hr : g.Reaches root r := h.reached r (by simp)
  refine Nat.le_antisymm (hr.distance_mention_le hmention) (Nat.lt_of_not_le fun hle => hnew ?_)
  -- a shortest chain to a rule that is not farther away ends with a mention by a known rule
  have hchain := (hr.mention hmention).chain_distance
  generalize g.distance root r' = n at hchain hle
  cases hchain with
  | root => exact h.root_mem
  | mention hchain hmention' => exact h.closed _ (h.mem_known hchain hle) hmention'

theorem step (h : g.Sorts root known (r :: queue)) :
    g.Sorts root (known ++ [r]) (enqueue (known ++ [r]) queue (g.mentions r)) := by
  have hexplores := h.toExplores.step
  obtain ⟨new, heq, hnew⟩ := exists_enqueue_eq (known ++ [r]) queue (g.mentions r)
  rw [heq] at hexplores ⊢
  rw [List.append_assoc, List.singleton_append] at hnew
  have hfar : ∀ x ∈ new, g.distance root x = g.distance root r + 1 := fun x hx =>
    h.distance_new (hnew x hx).1 (hnew x hx).2
  have hbelow : ∀ x ∈ known ++ r :: queue, g.distance root x ≤ g.distance root r + 1 := by
    intro x hx
    rcases List.mem_append.1 hx with hx | hx
    · have := (List.pairwise_append.1 h.sorted).2.2 x hx r List.mem_cons_self
      omega
    · exact h.span r List.mem_cons_self x hx
  have habove : ∀ x ∈ queue ++ new, g.distance root r ≤ g.distance root x := by
    intro x hx
    rcases List.mem_append.1 hx with hx | hx
    · exact h.distance_front_le (List.mem_cons_of_mem _ hx)
    · rw [hfar x hx]
      exact Nat.le_succ _
  refine ⟨hexplores, ?_, fun x hx y hy => ?_⟩
  · rw [List.append_assoc, List.singleton_append, ← List.cons_append, ← List.append_assoc,
      List.pairwise_append]
    refine ⟨h.sorted, List.pairwise_of_forall_mem_list fun x hx y hy => ?_, fun x hx y hy => ?_⟩
    · rw [hfar x hx, hfar y hy]
    · rw [hfar y hy]
      exact hbelow x hx
  · have hx' := habove x hx
    rcases List.mem_append.1 hy with hy | hy
    · have := hbelow y (List.mem_append_right _ (List.mem_cons_of_mem _ hy))
      omega
    · rw [hfar y hy]
      omega

end Sorts

/-- What is found is sorted. -/
theorem sorts_reachable (g : Grammar) (root : Rule) : g.Sorts root (g.reachable root) [] :=
  (worksOff_reachable g root).preserves (fun _ _ _ => Sorts.step) (.start g root)

/-! ### Validation -/

/-- The validation names the first rule without alternatives. -/
theorem validate_eq_error_iff {e : GrammarError} :
    g.validate root = .error e ↔
      ∃ before r after, g.reachable root = before ++ r :: after ∧ g.alternatives r = [] ∧
        (∀ r' ∈ before, g.alternatives r' ≠ []) ∧ e = .emptyRule r := by
  unfold validate
  split
  · rename_i r hr
    obtain ⟨hempty, before, after, heq, hbefore⟩ := List.find?_eq_some_iff_append.1 hr
    have hfirst : ∀ r' ∈ before, g.alternatives r' ≠ [] := by simpa using hbefore
    constructor
    · intro h
      exact ⟨before, r, after, heq, List.isEmpty_iff.1 hempty, hfirst, (Except.error.inj h).symm⟩
    · rintro ⟨before', r', after', heq', hempty', hfirst', rfl⟩
      have hfound : (g.reachable root).find? (fun r => (g.alternatives r).isEmpty) = some r' :=
        List.find?_eq_some_iff_append.2
          ⟨List.isEmpty_iff.2 hempty', before', after', heq', by simpa using hfirst'⟩
      rw [hr] at hfound
      rw [Option.some.inj hfound]
  · rename_i hnone
    refine iff_of_false (by simp) ?_
    rintro ⟨before, r, after, heq, hempty, _, _⟩
    have hr : r ∈ g.reachable root := heq ▸ List.mem_append_right _ List.mem_cons_self
    exact List.find?_eq_none.1 hnone r hr (List.isEmpty_iff.2 hempty)

/-- **Reachability.**  The search from a root ends.  It finds the root first and then, each of them
once and nearest first, the other rules that are reached from it.  A grammar is valid if all of them have
alternatives, and otherwise the first of them that has none is named. -/
theorem reachable_exact (g : Grammar) (root : Rule) :
    g.WorksOff [] [root] (g.reachable root) ∧ (g.reachable root).Nodup ∧
      (g.reachable root).head? = some root ∧ (∀ r, r ∈ g.reachable root ↔ g.Reaches root r) ∧
      (g.reachable root).Pairwise (fun r r' => g.distance root r ≤ g.distance root r') ∧
      (g.validate root = .ok () ↔ ∀ r ∈ g.reachable root, g.alternatives r ≠ []) ∧
      ∀ e, g.validate root = .error e ↔
        ∃ before r after, g.reachable root = before ++ r :: after ∧ g.alternatives r = [] ∧
          (∀ r' ∈ before, g.alternatives r' ≠ []) ∧ e = .emptyRule r := by
  obtain ⟨hexplores, hsorted, _⟩ := sorts_reachable g root
  have hnodup := hexplores.nodup
  rw [List.append_nil] at hnodup hsorted
  have hends := worksOff_reachable g root
  refine ⟨hends, hnodup, ?_, fun r => mem_reachable_iff, hsorted, g.validate_eq_ok_iff root,
    fun e => validate_eq_error_iff⟩
  -- the root is worked off first
  cases hends with
  | next hends =>
    obtain ⟨rest, hrest⟩ := hends.known_prefix
    rw [← hrest]
    rfl

end ScoreScript.Grammar
