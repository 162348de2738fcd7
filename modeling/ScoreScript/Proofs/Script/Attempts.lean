import Mathlib.Data.Nat.Find
import ScoreScript.Proofs.Script.Generation

/-!
# Attempts

A generator that tries again makes one attempt after another on the same stream.  Which attempt decides
can be said without the loop: number the attempts that could be made, each of which starts where the one
before it stopped; the first one that does not fail for a reason that may go away is the result, if it
comes early enough.

* `Draw.turn` — the outcome of every single attempt, successful or not;
* `Outcome.isRetryable` — an outcome after which there may be another attempt;
* `Draw.retry_eq_turn`, `Draw.retry_eq_exhausted` — the loop ends with the first attempt that settles
  it, or after all of them;
* `Draw.retry_cases` — one of the two is so;
* `Draw.FirstOf` — the outcome of the first attempt, among so many, that settles it;
* `Generator.generate_first_settled` — what generation returns, and where it leaves the stream.
-/

namespace ScoreScript

variable {S A σ α : Type}

/-! ### Consecutive attempts -/

/-- The outcome of the computation when it has been made `k` times before on the same stream.  It
starts where the one before it stopped, whether that one finished or failed. -/
def Draw.turn {ε : Type} (x : Draw σ ε α) : (k : Nat) → Draw σ ε α
  | 0, s => x s
  | k + 1, s =>
    match x s with
    | .dry => .dry
    | .failed _ rest => turn x k rest
    | .done _ rest => turn x k rest

/-- The outcome is a failure that may go away. -/
def Outcome.isRetryable : Outcome σ GenerateError α → Bool
  | .failed e _ => e.isRetryable
  | _ => false

theorem Outcome.isRetryable_iff {o : Outcome σ GenerateError α} :
    o.isRetryable = true ↔ ∃ e rest, o = .failed e rest ∧ e.isRetryable = true := by
  cases o with
  | dry => simp [isRetryable]
  | failed e rest => simp [isRetryable]
  | done value rest => simp [isRetryable]

namespace Draw

variable {x : Draw σ GenerateError α} {attempts left k : Nat} {s rest : Stream σ}

theorem turn_succ_of_failed {e : GenerateError} (h : x s = .failed e rest) (k : Nat) :
    x.turn (k + 1) s = x.turn k rest := by
  rw [turn, h]

/-- Whatever comes in some turn comes of the computation at some place of the stream. -/
theorem exists_of_turn {o : Outcome σ GenerateError α} (hdry : o ≠ .dry) (h : x.turn k s = o) :
    ∃ start, x start = o := by
  induction k generalizing s with
  | zero => exact ⟨s, h⟩
  | succ k ih =>
    rw [turn] at h
    cases hs : x s with
    | dry =>
      rw [hs] at h
      exact absurd h.symm hdry
    | failed e mid =>
      rw [hs] at h
      exact ih h
    | done value mid =>
      rw [hs] at h
      exact ih h

/-- The first turn, on its own, when it fails for a reason that may go away. -/
theorem exists_failed_of_isRetryable (h : (x.turn 0 s).isRetryable = true) :
    ∃ e rest, x s = .failed e rest ∧ e.isRetryable = true :=
  Outcome.isRetryable_iff.1 h

/-- A turn that settles it after failures that may go away is what the repetition comes to. -/
theorem retry_eq_turn (hk : k ≤ left) (hbefore : ∀ j < k, (x.turn j s).isRetryable = true)
    (hsettled : (x.turn k s).isRetryable = false) : x.retry attempts left s = x.turn k s := by
  induction k generalizing s left with
  | zero =>
    have hs : (x s).isRetryable = false := hsettled
    show _ = x s
    cases hx : x s with
    | dry => cases left <;> simp [retry, hx]
    | done value rest => exact retry_of_done hx left
    | failed e rest =>
      rw [hx, Outcome.isRetryable] at hs
      cases left <;> simp [retry, hx, hs]
  | succ k ih =>
    obtain ⟨left, rfl⟩ : ∃ m, left = m + 1 := ⟨left - 1, by omega⟩
    obtain ⟨e, rest, hx, he⟩ := exists_failed_of_isRetryable (hbefore 0 (Nat.succ_pos k))
    have hturn := turn_succ_of_failed hx
    rw [retry_succ_of_retryable hx he, hturn]
    apply ih (Nat.le_of_succ_le_succ hk)
    · intro j hj
      rw [← hturn]
      exact hbefore (j + 1) (Nat.succ_lt_succ hj)
    · rw [← hturn]
      exact hsettled

/-- When all turns fail for reasons that may go away, the last of them is reported. -/
theorem retry_eq_exhausted (attempts : Nat) (hall : ∀ j ≤ left, (x.turn j s).isRetryable = true) :
    ∃ e rest, x.turn left s = .failed e rest ∧
      x.retry attempts left s = .failed (.exhausted attempts e) rest := by
  induction left generalizing s with
  | zero =>
    obtain ⟨e, rest, hx, he⟩ := exists_failed_of_isRetryable (hall 0 (Nat.le_refl 0))
    refine ⟨e, rest, hx, ?_⟩
    simp [retry, hx, he]
  | succ left ih =>
    obtain ⟨e, rest, hx, he⟩ := exists_failed_of_isRetryable (hall 0 (Nat.zero_le _))
    have hturn := turn_succ_of_failed hx
    obtain ⟨e', rest', hlast, hretry⟩ := ih fun j hj => by
      rw [← hturn]
      exact hall (j + 1) (Nat.succ_le_succ hj)
    refine ⟨e', rest', ?_, ?_⟩
    · rw [hturn, hlast]
    · rw [retry_succ_of_retryable hx he, hretry]

/-- **Trying again.**  A repetition comes to the first turn that settles it; if none of them does, it
fails with the error of the last one, which it reports with the number of attempts. -/
theorem retry_cases (x : Draw σ GenerateError α) (attempts left : Nat) (s : Stream σ) :
    (∃ k ≤ left, (x.turn k s).isRetryable = false ∧ (∀ j < k, (x.turn j s).isRetryable = true) ∧
        x.retry attempts left s = x.turn k s) ∨
      (∀ j ≤ left, (x.turn j s).isRetryable = true) ∧ ∃ e rest, x.turn left s = .failed e rest ∧
        x.retry attempts left s = .failed (.exhausted attempts e) rest := by
  by_cases hsettles : ∃ k, k ≤ left ∧ (x.turn k s).isRetryable = false
  · obtain ⟨hk, hsettled⟩ := Nat.find_spec hsettles
    have hbefore : ∀ j < Nat.find hsettles, (x.turn j s).isRetryable = true := by
      intro j hj
      have hnot := Nat.find_min hsettles hj
      rw [not_and] at hnot
      exact eq_true_of_ne_false (hnot (Nat.le_trans (Nat.le_of_lt hj) hk))
    exact Or.inl ⟨_, hk, hsettled, hbefore, retry_eq_turn hk hbefore hsettled⟩
  · have hall : ∀ j ≤ left, (x.turn j s).isRetryable = true :=
      fun j hj => eq_true_of_ne_false fun hj' => hsettles ⟨j, hj, hj'⟩
    exact Or.inr ⟨hall, retry_eq_exhausted attempts hall⟩

/-- Among so many turns, the first one that does not fail for a reason that may go away has the given
outcome. -/
def FirstOf (x : Draw σ GenerateError α) (attempts : Nat) (s : Stream σ)
    (o : Outcome σ GenerateError α) : Prop :=
  ∃ k < attempts, x.turn k s = o ∧ ∀ j < k, (x.turn j s).isRetryable = true

/-- A repetition never ends with a failure that may go away. -/
theorem isRetryable_retry (x : Draw σ GenerateError α) (attempts left : Nat) (s : Stream σ) :
    (x.retry attempts left s).isRetryable = false := by
  rcases retry_cases x attempts left s with ⟨k, _, hsettled, _, hretry⟩ | ⟨_, e, rest, _, hretry⟩
  · rw [hretry, hsettled]
  · rw [hretry, Outcome.isRetryable, GenerateError.isRetryable_exhausted]

/-- Unless it reports that the attempts are used up, an outcome that settles it is that of the
repetition exactly if it comes first. -/
theorem retry_eq_iff_firstOf {o : Outcome σ GenerateError α} (hsettled : o.isRetryable = false)
    (hother : ∀ n last rest, o ≠ .failed (.exhausted n last) rest) :
    x.retry attempts left s = o ↔ x.FirstOf (left + 1) s o := by
  constructor
  · rintro rfl
    rcases retry_cases x attempts left s with
      ⟨k, hk, _, hbefore, hretry⟩ | ⟨_, e, rest, _, hretry⟩
    · exact ⟨k, Nat.lt_succ_of_le hk, hretry.symm, hbefore⟩
    · exact absurd hretry (hother attempts e rest)
  · rintro ⟨k, hk, rfl, hbefore⟩
    exact retry_eq_turn (Nat.le_of_lt_succ hk) hbefore hsettled

/-- With more attempts the first one that settles it stays the same. -/
theorem FirstOf.mono {o : Outcome σ GenerateError α} {attempts' : Nat}
    (h : x.FirstOf attempts s o) (hle : attempts ≤ attempts') : x.FirstOf attempts' s o := by
  obtain ⟨k, hk, ho, hbefore⟩ := h
  exact ⟨k, Nat.lt_of_lt_of_le hk hle, ho, hbefore⟩

end Draw

/-! ### Generators -/

namespace Generator

/-- One attempt never reports a number of attempts. -/
theorem attempt_ne_exhausted {g : Generator S A} {s rest : Stream σ} {e : GenerateError}
    (h : g.attempt s = .failed e rest) (n : Nat) (last : GenerateError) : e ≠ .exhausted n last := by
  rintro rfl
  rcases Draw.bind_eq_failed_iff.1 h with hgrow | ⟨t, mid, _, hassemble⟩
  · rcases Grammar.expand_failed hgrow with hlimit | ⟨r, _, hdefect⟩
    · cases hlimit
    · cases hdefect
  · cases hscript : g.assemble t with
    | ok script =>
      rw [hscript] at hassemble
      cases hassemble
    | error e =>
      rw [hscript] at hassemble
      obtain ⟨rfl, _⟩ := Outcome.failed.inj hassemble
      rw [assemble, Script.assemble] at hscript
      split at hscript
      · cases hscript
      · split at hscript <;> cases hscript

/-- The generator with another number of attempts. -/
def withAttempts (g : Generator S A) (attempts : Nat) : Generator S A :=
  { g with config := { g.config with maxAttempts := attempts } }

/-- The number of attempts does not matter for the grammar. -/
theorem make_withAttempts {catalog : Catalog S A} {config : Config} {g : Generator S A}
    (h : make catalog config = .ok g) (attempts : Nat) :
    make catalog { config with maxAttempts := attempts } = .ok (g.withAttempts attempts) := by
  obtain ⟨grammar, hgrammar, rfl⟩ := Result.map_eq_ok_iff.1 h
  exact Result.map_eq_ok_iff.2 ⟨grammar, hgrammar, rfl⟩

theorem attempts_withAttempts_le {g : Generator S A} {attempts : Nat}
    (h : g.config.maxAttempts ≤ attempts) :
    g.config.attempts ≤ (g.withAttempts attempts).config.attempts := by
  show max _ 1 ≤ max attempts 1
  omega

/-- Unless it reports that the attempts are used up, an outcome that settles it is that of generation
exactly if it comes first. -/
theorem generate_eq_iff_firstOf {g : Generator S A} {s : Stream σ}
    {o : Outcome σ GenerateError (Script S A)} (hsettled : o.isRetryable = false)
    (hother : ∀ n last rest, o ≠ .failed (.exhausted n last) rest) :
    g.generate s = o ↔ g.attempt.FirstOf g.config.attempts s o := by
  have hattempts : g.config.attempts - 1 + 1 = g.config.attempts :=
    Nat.sub_add_cancel g.config.attempts_pos
  rw [generate, Draw.retry_eq_iff_firstOf hsettled hother, hattempts]

theorem generate_eq_done_iff {g : Generator S A} {s rest : Stream σ} {script : Script S A} :
    g.generate s = .done script rest ↔
      g.attempt.FirstOf g.config.attempts s (.done script rest) :=
  generate_eq_iff_firstOf rfl fun _ _ _ h => by cases h

/-- An error that one attempt fails with, and that does not go away, is that of generation exactly if
it comes first. -/
theorem generate_eq_failed_iff {g : Generator S A} {s rest : Stream σ} {e : GenerateError} :
    (g.generate s = .failed e rest ∧ ∀ n last, e ≠ .exhausted n last) ↔
      e.isRetryable = false ∧ g.attempt.FirstOf g.config.attempts s (.failed e rest) := by
  have hfailed : (∀ n last, e ≠ .exhausted n last) → ∀ n last rest',
      (.failed e rest : Outcome σ GenerateError (Script S A)) ≠
        .failed (.exhausted n last) rest' :=
    fun hother n last _ heq => hother n last (Outcome.failed.inj heq).1
  constructor
  · rintro ⟨h, hother⟩
    have hsettled : (g.generate s).isRetryable = false := Draw.isRetryable_retry _ _ _ s
    rw [h] at hsettled
    exact ⟨hsettled, (generate_eq_iff_firstOf hsettled (hfailed hother)).1 h⟩
  · rintro ⟨hsettled, hfirst⟩
    have hother : ∀ n last, e ≠ .exhausted n last := by
      obtain ⟨k, _, hk, _⟩ := hfirst
      obtain ⟨start, hstart⟩ := Draw.exists_of_turn (by simp) hk
      exact attempt_ne_exhausted hstart
    exact ⟨(generate_eq_iff_firstOf (o := .failed e rest) hsettled (hfailed hother)).2 hfirst, hother⟩

/-- The attempts are used up exactly if all of them fail for reasons that may go away. -/
theorem generate_eq_exhausted_iff {g : Generator S A} {s rest : Stream σ} {n : Nat}
    {last : GenerateError} :
    g.generate s = .failed (.exhausted n last) rest ↔
      n = g.config.attempts ∧ g.attempt.turn (n - 1) s = .failed last rest ∧
        ∀ j < n, (g.attempt.turn j s).isRetryable = true := by
  constructor
  · intro h
    rcases Draw.retry_cases g.attempt g.config.attempts _ s with
      ⟨k, _, _, _, hretry⟩ | ⟨hall, last', rest', hlast, hretry⟩
    · obtain ⟨start, hstart⟩ := Draw.exists_of_turn (by simp) (hretry.symm.trans h)
      exact absurd rfl (attempt_ne_exhausted hstart n last)
    · obtain ⟨hreport, rfl⟩ := Outcome.failed.inj (h.symm.trans hretry)
      obtain ⟨rfl, rfl⟩ := GenerateError.exhausted.inj hreport
      exact ⟨rfl, hlast, fun j hj => hall j (Nat.le_sub_one_of_lt hj)⟩
  · rintro ⟨rfl, hlast, hall⟩
    have hpos := g.config.attempts_pos
    obtain ⟨last', rest', hlast', hretry⟩ := Draw.retry_eq_exhausted (x := g.attempt)
      g.config.attempts fun j hj => hall j (Nat.lt_of_le_sub_one hpos hj)
    obtain ⟨rfl, rfl⟩ := Outcome.failed.inj (hlast.symm.trans hlast')
    exact hretry

/-- **The first attempt that settles it.**  Consider the attempts that can be made one after another
on a stream.  Generation returns a script exactly if the first attempt that does not fail for a reason
that may go away is among those that are allowed and returns the script; it leaves the stream where that
attempt does.  In the same way it returns an error that does not go away.  It reports that the attempts
are used up exactly if all those that are allowed fail for reasons that may go away; it then gives their
number, at least one, and the error of the last.  So allowing more attempts never changes a script that
is generated. -/
theorem generate_first_settled (g : Generator S A) (s : Stream σ) :
    (∀ script rest, g.generate s = .done script rest ↔
      g.attempt.FirstOf g.config.attempts s (.done script rest)) ∧
    (∀ e rest, (g.generate s = .failed e rest ∧ ∀ n last, e ≠ .exhausted n last) ↔
      e.isRetryable = false ∧ g.attempt.FirstOf g.config.attempts s (.failed e rest)) ∧
    (∀ n last rest, g.generate s = .failed (.exhausted n last) rest ↔
      n = g.config.attempts ∧ g.attempt.turn (n - 1) s = .failed last rest ∧
        ∀ j < n, (g.attempt.turn j s).isRetryable = true) ∧
    (g.generate s = .dry ↔ g.attempt.FirstOf g.config.attempts s .dry) ∧
    ∀ (catalog : Catalog S A) (config : Config), make catalog config = .ok g →
      ∀ attempts, config.maxAttempts ≤ attempts → ∀ script rest,
        g.generate s = .done script rest →
          ∃ g', make catalog { config with maxAttempts := attempts } = .ok g' ∧
            g'.generate s = .done script rest := by
  refine ⟨fun script rest => generate_eq_done_iff, fun e rest => generate_eq_failed_iff,
    fun n last rest => generate_eq_exhausted_iff,
    generate_eq_iff_firstOf rfl (fun _ _ _ h => by cases h), ?_⟩
  intro catalog config hmake attempts hle script rest hdone
  have hconfig : g.config = config := (make_eq_ok hmake).config_eq
  refine ⟨g.withAttempts attempts, make_withAttempts hmake attempts, ?_⟩
  have hfirst := generate_eq_done_iff.1 hdone
  exact generate_eq_done_iff.2 (hfirst.mono (attempts_withAttempts_le (hconfig ▸ hle)))

end Generator

/-- Words for which the first repetition goes on once and every later one ends at once. -/
def WordSource.hesitant : WordSource Nat where
  next32 n := (0, n + 1)
  next64 n := (if n = 1 then 0 else 0xFFFFFFFFFFFFFFFF, n + 1)

/-- Trees of one level only, for which so many attempts are allowed. -/
def Config.flat (attempts : Nat) : Config :=
  { Config.default with limits := ⟨1, 512⟩, maxAttempts := attempts }

/-- For the hesitant words the first tree has a block and is too deep, and the second one has none.
Two attempts give the script without blocks, and so do seven. -/
theorem Generator.generate_first_settled_hesitant :
    ∃ g g' script rest, make Catalog.small (.flat 2) = .ok g ∧
      (g.attempt.turn 0 (.start WordSource.hesitant 0 100)).isRetryable = true ∧
      g.generate (.start WordSource.hesitant 0 100) = .done script rest ∧
      script.blocks.length = 0 ∧ rest.drawn32 = 2 ∧
      make Catalog.small (.flat 7) = .ok g' ∧
      g'.generate (.start WordSource.hesitant 0 100) = .done script rest := by
  obtain ⟨g, script, rest, hg, hrun, htest⟩ :=
    exists_generated Catalog.small (.flat 2) (.start WordSource.hesitant 0 100)
      (fun g script rest =>
        (g.attempt.turn 0 (.start WordSource.hesitant 0 100)).isRetryable &&
          script.blocks.length == 0 && rest.drawn32 == 2) (by decide +kernel)
  rw [Bool.and_eq_true, Bool.and_eq_true, beq_iff_eq, beq_iff_eq] at htest
  obtain ⟨⟨hfirst, hnone⟩, hdrawn⟩ := htest
  obtain ⟨_, _, _, _, hmore⟩ := generate_first_settled g (.start WordSource.hesitant 0 100)
  obtain ⟨g', hg', hrun'⟩ := hmore Catalog.small (.flat 2) hg 7 (by decide) script rest hrun
  exact ⟨g, g', script, rest, hg, hfirst, hrun, hnone, hdrawn, hg', hrun'⟩

end ScoreScript
