import ScoreScript.Proofs.Grammar.Derivation
import ScoreScript.Proofs.Tree.Limits

/-!
# Limits cut and do not steer

No draw depends on the limits: from the same words a grammar grows the same tree under all limits
that the tree keeps, and under any others growing stops at a limit.

* `Grammar.Cut` — what limits make of growing that finishes without them;
* `Grammar.growAll_cut`, `Grammar.grow_cut` — one list of symbols, one symbol, under two limits;
* `Grammar.expand_cut` — a whole tree under two limits.
-/

namespace ScoreScript

namespace Grammar

variable {σ α : Type}

/-- Within the limits the outcome is the value, with the stream left where it was left before;
otherwise a limit is hit. -/
structure Cut (limits : Limits) (within : Prop) (value : α) (rest : Stream σ)
    (outcome : Outcome σ GenerateError α) : Prop where
  done : within → outcome = .done value rest
  failed : ¬ within → ∃ e rest', outcome = .failed e rest' ∧ LimitHit limits e

namespace Cut

variable {limits : Limits} {within : Prop} {value : α} {rest : Stream σ}
  {outcome : Outcome σ GenerateError α}

theorem congr {within' : Prop} (h : Cut limits within value rest outcome)
    (hiff : within' ↔ within) : Cut limits within' value rest outcome :=
  ⟨fun hw => h.done (hiff.1 hw), fun hw => h.failed (hiff.not.1 hw)⟩

/-- A computation that keeps the limits as the first does, and then another one. -/
theorem bind {β : Type} {within' : Prop} {x : Draw σ GenerateError α}
    {f : α → Draw σ GenerateError β} {s : Stream σ} {value' : β} {rest' : Stream σ}
    (hx : Cut limits within value rest (x s))
    (hf : within → Cut limits within' value' rest' (f value rest)) :
    Cut limits (within ∧ within') value' rest' ((x >>= f) s) := by
  constructor
  · rintro ⟨hwithin, hwithin'⟩
    exact Draw.bind_eq_done_iff.2 ⟨value, rest, hx.done hwithin, (hf hwithin).done hwithin'⟩
  · intro hnot
    by_cases hwithin : within
    · obtain ⟨e, mid, he, hlimit⟩ := (hf hwithin).failed fun hwithin' => hnot ⟨hwithin, hwithin'⟩
      exact ⟨e, mid, Draw.bind_eq_failed_iff.2 (.inr ⟨value, rest, hx.done hwithin, he⟩), hlimit⟩
    · obtain ⟨e, mid, he, hlimit⟩ := hx.failed hwithin
      exact ⟨e, mid, Draw.bind_eq_failed_iff.2 (.inl he), hlimit⟩

/-- What finishes under all limits keeps them. -/
theorem of_done (h : outcome = .done value rest) : Cut limits True value rest outcome :=
  ⟨fun _ => h, fun hnot => absurd trivial hnot⟩

/-- Hitting a limit is right where the value is not within the limits. -/
theorem of_limitHit {e : GenerateError} {mid : Stream σ} (h : outcome = .failed e mid)
    (hlimit : LimitHit limits e) (hnot : ¬ within) : Cut limits within value rest outcome :=
  ⟨fun hwithin => absurd hwithin hnot, fun _ => ⟨e, mid, h, hlimit⟩⟩

end Cut

/-! ### Two runs on the same words -/

/-- If one way to grow a tree finishes and another one is cut by limits, so it is with growing the
trees under symbols from left to right. -/
theorem growAll_cut {limits : Limits} {levels : Nat}
    {grow grow' : Symbol → Nat → Draw σ GenerateError (Tree × Nat)}
    (hafter : ∀ s next stream rest t after, grow s next stream = .done (t, after) rest →
      after = next + t.nodes)
    (hgrow : ∀ s next stream rest t after, grow s next stream = .done (t, after) rest →
      Cut limits (t.levels ≤ levels ∧ after ≤ limits.nodes) (t, after) rest (grow' s next stream))
    (symbols : List Symbol) (next : Nat) (stream rest : Stream σ) (ts : List Tree) (after : Nat)
    (hnext : next ≤ limits.nodes) (h : growAll grow symbols next stream = .done (ts, after) rest) :
    Cut limits (Tree.levelsAll ts ≤ levels ∧ after ≤ limits.nodes) (ts, after) rest
      (growAll grow' symbols next stream) := by
  induction symbols generalizing next stream rest ts with
  | nil =>
    simp only [growAll, Draw.pure_apply, Outcome.done.injEq, Prod.mk.injEq] at h
    obtain ⟨⟨rfl, rfl⟩, rfl⟩ := h
    refine (Cut.of_done rfl).congr ?_
    simp [Tree.levelsAll, hnext]
  | cons s symbols ih =>
    simp only [growAll, Draw.bind_eq_done_iff, Draw.pure_apply, Outcome.done.injEq,
      Prod.mk.injEq, Prod.exists] at h
    obtain ⟨t, mid, stream₁, ht, us, last, stream₂, hus, ⟨rfl, rfl⟩, rfl⟩ := h
    -- numbers only grow, so a limit that the last number keeps is kept all the way
    have hmid : mid ≤ last := numbered_growAll hafter _ _ _ _ _ _ hus ▸ Nat.le_add_right _ _
    refine Cut.congr ((hgrow _ _ _ _ _ _ ht).bind fun hfirst =>
      (ih _ _ _ _ hfirst.2 hus).bind fun _ => Cut.of_done rfl) ?_
    rw [Tree.levelsAll, and_true]
    omega

/-- **Two limits.**  Where growing finishes under some limits, others let it finish the same way when
the tree is within them, and stop it at a limit when it is not. -/
theorem grow_cut (g : Grammar) (limits limits' : Limits) (levels : Nat) (s : Symbol) (next : Nat)
    (stream rest : Stream σ) (t : Tree) (after : Nat)
    (h : g.grow limits levels s next stream = .done (t, after) rest) (levels' : Nat) :
    Cut limits' (t.levels ≤ levels' ∧ after ≤ limits'.nodes) (t, after) rest
      (g.grow limits' levels' s next stream) := by
  induction levels generalizing s next stream rest t after levels' with
  | zero => simp [grow, Draw.fail_apply] at h
  | succ levels ih =>
    have hafter := numbered_grow g limits _ _ _ _ _ _ _ h
    have hnodes := t.nodes_pos
    cases levels' with
    | zero =>
      refine .of_limitHit (by rw [grow, Draw.fail_apply]) .depth ?_
      have := t.levels_pos
      omega
    | succ levels' =>
      simp only [grow] at h ⊢
      split at h
      · simp [Draw.fail_apply] at h
      · split
        · refine .of_limitHit (by rw [Draw.fail_apply]) .nodes ?_
          omega
        · cases s with
          | terminal term =>
            simp only [Draw.pure_apply, Outcome.done.injEq, Prod.mk.injEq] at h
            obtain ⟨⟨rfl, rfl⟩, rfl⟩ := h
            refine (Cut.of_done rfl).congr ?_
            rw [Tree.levels, Tree.levelsAll, iff_true]
            omega
          | rule r =>
            simp only [Draw.bind_eq_done_iff, Draw.pure_apply, Outcome.done.injEq, Prod.mk.injEq,
              Prod.exists] at h
            obtain ⟨symbols, stream₁, hsymbols, ts, last, stream₂, hts, ⟨rfl, rfl⟩, rfl⟩ := h
            refine Cut.congr ((Cut.of_done hsymbols).bind fun _ =>
              (growAll_cut (numbered_grow g limits levels) (fun _ _ _ _ _ _ h => ih _ _ _ _ _ _ h _)
                _ _ _ _ _ _ (by omega) hts).bind fun _ => Cut.of_done rfl) ?_
            rw [Tree.levels, true_and, and_true]
            omega

/-! ### Whole trees -/

/-- **Limits cut and do not steer.**  A tree that grows under some limits grows under all others that
it keeps, from the same words and leaving the same words; under those that it does not keep growing
stops at one of them. -/
theorem expand_cut {g : Grammar} {root : Rule} {limits : Limits} {stream rest : Stream σ} {t : Tree}
    (h : g.expand root limits stream = .done t rest) (limits' : Limits) :
    (t.depth ≤ limits'.depth ∧ t.size ≤ limits'.nodes →
      g.expand root limits' stream = .done t rest) ∧
    (¬ (t.depth ≤ limits'.depth ∧ t.size ≤ limits'.nodes) → ∃ error rest',
      g.expand root limits' stream = .failed (.limit error) rest' ∧
        (error = .tooDeep limits'.depth ∨ error = .tooManyNodes limits'.nodes)) := by
  obtain ⟨⟨t', after⟩, mid, hgrow, h⟩ := Draw.bind_eq_done_iff.1 h
  simp only [Draw.pure_apply, Outcome.done.injEq] at h
  obtain ⟨rfl, rfl⟩ := h
  have hafter := numbered_grow g limits _ _ _ _ _ _ _ hgrow
  have hcut : Cut limits' (t'.depth ≤ limits'.depth ∧ t'.size ≤ limits'.nodes) t' mid
      (g.expand root limits' stream) := by
    refine Cut.congr ((grow_cut g limits limits' _ _ _ _ _ _ _ hgrow _).bind fun _ =>
      Cut.of_done rfl) ?_
    rw [Tree.depth_eq_levels, Tree.size_eq_nodes, hafter, Nat.zero_add, and_true]
  refine ⟨hcut.done, fun hnot => ?_⟩
  obtain ⟨e, rest', he, hlimit⟩ := hcut.failed hnot
  cases hlimit with
  | depth => exact ⟨_, rest', he, .inl rfl⟩
  | nodes => exact ⟨_, rest', he, .inr rfl⟩

/-- The tree of the nested words has six levels and seven nodes.  It grows under limits of just this
size, and not under any smaller ones. -/
theorem expand_cut_nested :
    ∃ t rest, nested.expand .start .default nestedWords = .done t rest ∧
      nested.expand .start ⟨6, 7⟩ nestedWords = .done t rest ∧
      (∃ error rest', nested.expand .start ⟨5, 7⟩ nestedWords = .failed (.limit error) rest' ∧
        (error = .tooDeep 5 ∨ error = .tooManyNodes 7)) ∧
      ∃ error rest', nested.expand .start ⟨6, 6⟩ nestedWords = .failed (.limit error) rest' ∧
        (error = .tooDeep 6 ∨ error = .tooManyNodes 6) := by
  obtain ⟨t, rest, hexpand, hdepth, hsize⟩ := expand_nested
  have hlarger := (expand_cut hexpand .default).1
  rw [hdepth, hsize] at hlarger
  have hcut := expand_cut (hlarger (by decide))
  rw [hdepth, hsize] at hcut
  exact ⟨t, rest, hlarger (by decide), (hcut ⟨6, 7⟩).1 (by decide), (hcut ⟨5, 7⟩).2 (by decide),
    (hcut ⟨6, 6⟩).2 (by decide)⟩

end Grammar

end ScoreScript
