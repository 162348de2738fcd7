import ScoreScript.Grammar.Basic
import ScoreScript.Script.Error

/-!
# Growing trees

A tree grows from a root rule: an alternative of the rule is chosen, every one equally likely, its
symbols become children, and the children grow in turn, from left to right.  Nodes are numbered in
the order in which they come up.

* `Grammar.grow` — the tree under a symbol, for as many levels as are left;
* `Grammar.expand` — a tree from a root within limits;
* `Grammar.numbered_grow` — the numbers used up are as many as the nodes of the tree.
-/

namespace ScoreScript

namespace Grammar

variable {σ : Type}

/-- The symbols that replace a rule: one of its alternatives, resolved. -/
def replacement (g : Grammar) (r : Rule) : Draw σ GenerateError (List Symbol) := do
  match ← Draw.element (g.alternatives r) with
  | none => Draw.fail (.missingRule r)
  | some alternative => (alternative.resolve).mapError (.sample r)

/-- The trees under symbols, from left to right.  `next` is the number of the next node. -/
def growAll (grow : Symbol → Nat → Draw σ GenerateError (Tree × Nat)) :
    List Symbol → Nat → Draw σ GenerateError (List Tree × Nat)
  | [], next => pure ([], next)
  | s :: rest, next => do
    let (t, next) ← grow s next
    let (ts, next) ← growAll grow rest next
    return (t :: ts, next)

/-- The tree under a symbol, when `levels` levels are left and `next` is the number of the next
node. -/
def grow (g : Grammar) (limits : Limits) :
    (levels : Nat) → Symbol → (next : Nat) → Draw σ GenerateError (Tree × Nat)
  | 0, _, _ => Draw.fail (.limit (.tooDeep limits.depth))
  | levels + 1, s, next =>
    if limits.nodes ≤ next then Draw.fail (.limit (.tooManyNodes limits.nodes))
    else
      match s with
      | .terminal t => pure (.node (UInt32.ofNat next) (.terminal t) [], next + 1)
      | .rule r => do
        let symbols ← g.replacement r
        let (children, after) ← growAll (g.grow limits levels) symbols (next + 1)
        return (.node (UInt32.ofNat next) (.rule r) children, after)

/-- A tree from a root within limits. -/
def expand (g : Grammar) (root : Rule) (limits : Limits) : Draw σ GenerateError Tree := do
  let (t, _) ← g.grow limits limits.depth (.rule root) 0
  return t

/-! ### Numbering -/

theorem numbered_growAll {grow : Symbol → Nat → Draw σ GenerateError (Tree × Nat)}
    (hgrow : ∀ s next stream rest t after,
      grow s next stream = .done (t, after) rest → after = next + t.nodes)
    (symbols : List Symbol) (next : Nat) (stream rest : Stream σ) (ts : List Tree) (after : Nat)
    (h : growAll grow symbols next stream = .done (ts, after) rest) :
    after = next + Tree.nodesAll ts := by
  induction symbols generalizing next stream rest ts with
  | nil =>
    simp only [growAll, Draw.pure_apply, Outcome.done.injEq, Prod.mk.injEq] at h
    rw [← h.1.1, ← h.1.2, Tree.nodesAll, Nat.add_zero]
  | cons s symbols ih =>
    simp only [growAll, Draw.bind_eq_done_iff, Draw.pure_apply, Outcome.done.injEq,
      Prod.mk.injEq, Prod.exists] at h
    obtain ⟨t, mid, stream₁, ht, us, last, stream₂, hus, ⟨rfl, rfl⟩, _⟩ := h
    have h₁ := hgrow _ _ _ _ _ _ ht
    have h₂ := ih _ _ _ _ hus
    rw [Tree.nodesAll]
    omega

theorem numbered_grow (g : Grammar) (limits : Limits) (levels : Nat) (s : Symbol) (next : Nat)
    (stream rest : Stream σ) (t : Tree) (after : Nat)
    (h : g.grow limits levels s next stream = .done (t, after) rest) : after = next + t.nodes := by
  induction levels generalizing s next stream rest t after with
  | zero => simp [grow, Draw.fail_apply] at h
  | succ levels ih =>
    simp only [grow] at h
    split at h
    · simp [Draw.fail_apply] at h
    · cases s with
      | terminal term =>
        simp only [Draw.pure_apply, Outcome.done.injEq, Prod.mk.injEq] at h
        rw [← h.1.1, ← h.1.2, Tree.nodes, Tree.nodesAll]
      | rule r =>
        simp only [Draw.bind_eq_done_iff, Draw.pure_apply, Outcome.done.injEq, Prod.mk.injEq,
          Prod.exists] at h
        obtain ⟨symbols, stream₁, _, ts, last, stream₂, hts, ⟨rfl, rfl⟩, _⟩ := h
        have h₁ := numbered_growAll ih _ _ _ _ _ _ hts
        rw [Tree.nodes]
        omega

end Grammar

end ScoreScript
