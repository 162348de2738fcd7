import ScoreScript.Grammar.Rule
import ScoreScript.Numeric.Shortest
import ScoreScript.Random.Choice

/-!
# Samplers

A sampler yields a sequence of symbols that is drawn anew each time.

* `Diminishing` — copies of one symbol, as many as an event of probability `gamma` happens in a row;
* `Weighted` — one of several sequences, each with a probability in proportion to its weight;
* `Sampler.sample` — one draw; `Sampler.symbols` — all that a draw may contain;
* `Sampler.Yields`, `Production.Yields` — the sequences that a draw may be;
* `Weighted.select_mem` — a weighted draw is one of the choices;
* `Sampler.sample_eq_failed` — only a sampler whose draws never succeed fails.
-/

namespace ScoreScript

/-- Why a sampler cannot be made or cannot draw. -/
inductive SampleError where
  | noChoices
  | invalidWeight (index : Nat) (weight : Float)
  | invalidTotal (total : Float)
  | invalidGamma (gamma : Float)

/-- The wording of an error. -/
def SampleError.message : SampleError → String
  | noChoices => "weighted sampler has no choices"
  | invalidWeight index weight =>
    s!"choice {index} has weight {Shortest.text weight}; weights must be positive and finite"
  | invalidTotal total =>
    s!"weights sum to {Shortest.text total}; the total must be positive and finite"
  | invalidGamma gamma => s!"gamma {Shortest.text gamma} is outside [0, 1)"

/-! ### Repetition -/

/-- Copies of one symbol; before each further copy an event of probability `gamma` has to happen. -/
structure Diminishing where
  gamma : Float
  symbol : Symbol

namespace Diminishing

/-- Probabilities from 0 up to 1 let the copies come to an end. -/
def isGamma (gamma : Float) : Bool :=
  gamma.isFinite && 0.0 ≤ gamma && gamma < 1.0

/-- The repetition of a symbol with a probability from 0 up to 1. -/
def make (gamma : Float) (symbol : Symbol) : Except SampleError Diminishing :=
  if isGamma gamma then .ok ⟨gamma, symbol⟩ else .error (.invalidGamma gamma)

/-- The expected number of copies. -/
def expectedLength (d : Diminishing) : Float :=
  d.gamma / (1.0 - d.gamma)

/-- One draw of copies. -/
def sample {σ : Type} (d : Diminishing) : Draw σ SampleError (List Symbol) := do
  let count ← Draw.repeats d.gamma
  return List.replicate count d.symbol

theorem make_eq_ok {gamma : Float} {symbol : Symbol} {d : Diminishing}
    (h : make gamma symbol = .ok d) : d = ⟨gamma, symbol⟩ := by
  unfold make at h
  split at h
  · exact (Except.ok.inj h).symm
  · exact absurd h (by simp)

end Diminishing

/-! ### Weighted choice -/

/-- Sequences with their weights, and the sum of the weights. -/
structure Weighted where
  choices : List (Float × List Symbol)
  total : Float

namespace Weighted

/-- Weights and their sum are positive and finite. -/
def isWeight (weight : Float) : Bool :=
  weight.isFinite && !(weight ≤ 0.0)

/-- The first choice with an invalid weight, counted from `index`. -/
def invalidFrom (index : Nat) : List (Float × List Symbol) → Option SampleError
  | [] => none
  | (weight, _) :: rest =>
    if isWeight weight then invalidFrom (index + 1) rest else some (.invalidWeight index weight)

/-- The sum of the weights, added from left to right. -/
def sum (choices : List (Float × List Symbol)) : Float :=
  choices.foldl (fun total choice => total + choice.1) 0.0

/-- The choice among sequences with positive finite weights. -/
def make (choices : List (Float × List Symbol)) : Except SampleError Weighted :=
  if choices.isEmpty then .error .noChoices
  else
    match invalidFrom 0 choices with
    | some error => .error error
    | none =>
      if isWeight (sum choices) then .ok ⟨choices, sum choices⟩
      else .error (.invalidTotal (sum choices))

/-- The probability of the choice at a position. -/
def probability? (w : Weighted) (index : Nat) : Option Float :=
  w.choices[index]?.map fun choice => choice.1 / w.total

/-- The sequence in whose share of the total a number lies.  The last one takes all that rounding
leaves over. -/
def select (x : Float) : List (Float × List Symbol) → Option (List Symbol)
  | [] => none
  | [(_, last)] => some last
  | (weight, sequence) :: rest =>
    if x < weight then some sequence else select (x - weight) rest

/-- One draw of a sequence. -/
def sample {σ : Type} (w : Weighted) : Draw σ SampleError (List Symbol) :=
  if w.choices.isEmpty then Draw.fail .noChoices
  else do
    let x ← Draw.below w.total
    match select x w.choices with
    | some sequence => return sequence
    | none => Draw.fail .noChoices

theorem select_mem {x : Float} {choices : List (Float × List Symbol)} {sequence : List Symbol}
    (h : select x choices = some sequence) : sequence ∈ choices.map (·.2) := by
  induction choices generalizing x with
  | nil => simp [select] at h
  | cons first rest ih =>
    cases rest with
    | nil =>
      simp only [select, Option.some.injEq] at h
      simp [h]
    | cons second rest =>
      simp only [select] at h
      split at h
      · simp only [Option.some.injEq] at h
        simp [h]
      · exact List.mem_cons_of_mem _ (ih h)

theorem select_isSome {x : Float} {choices : List (Float × List Symbol)} (h : choices ≠ []) :
    (select x choices).isSome := by
  induction choices generalizing x with
  | nil => exact absurd rfl h
  | cons first rest ih =>
    cases rest with
    | nil => rfl
    | cons second rest =>
      simp only [select]
      split
      · rfl
      · exact ih (by simp)

theorem make_eq_ok {choices : List (Float × List Symbol)} {w : Weighted}
    (h : make choices = .ok w) : choices ≠ [] ∧ w = ⟨choices, sum choices⟩ := by
  unfold make at h
  split at h
  · exact absurd h (by simp)
  · rename_i hne
    split at h
    · exact absurd h (by simp)
    · split at h
      · exact ⟨by simpa using hne, (Except.ok.inj h).symm⟩
      · exact absurd h (by simp)

end Weighted

/-! ### Samplers -/

/-- A way to draw a sequence of symbols.  A failing sampler declares what it could yield and answers
every draw with its error. -/
inductive Sampler where
  | diminishing (repetition : Diminishing)
  | weighted (choice : Weighted)
  | failing (error : SampleError) (declared : List Symbol)

namespace Sampler

/-- One draw. -/
def sample {σ : Type} : Sampler → Draw σ SampleError (List Symbol)
  | diminishing d => d.sample
  | weighted w => w.sample
  | failing error _ => Draw.fail error

/-- Every symbol that a draw may contain. -/
def symbols : Sampler → List Symbol
  | diminishing d => [d.symbol]
  | weighted w => w.choices.flatMap (·.2)
  | failing _ declared => declared

/-- The sequences that a draw may be. -/
def Yields : Sampler → List Symbol → Prop
  | diminishing d, sequence => ∃ count, sequence = List.replicate count d.symbol
  | weighted w, sequence => sequence ∈ w.choices.map (·.2)
  | failing _ _, _ => False

/-- No draw can succeed. -/
def Barren : Sampler → Prop
  | diminishing _ => False
  | weighted w => w.choices = []
  | failing _ _ => True

theorem sample_eq_done {σ : Type} {sampler : Sampler} {sequence : List Symbol} {s rest : Stream σ}
    (h : sampler.sample s = .done sequence rest) : sampler.Yields sequence := by
  cases sampler with
  | diminishing d =>
    obtain ⟨count, mid, _, h⟩ := Draw.bind_eq_done_iff.1 h
    simp only [Draw.pure_apply, Outcome.done.injEq] at h
    exact ⟨count, h.1.symm⟩
  | weighted w =>
    simp only [sample, Weighted.sample] at h
    split at h
    · simp [Draw.fail_apply] at h
    · obtain ⟨x, mid, _, h⟩ := Draw.bind_eq_done_iff.1 h
      cases hfound : Weighted.select x w.choices with
      | none => simp [hfound, Draw.fail_apply] at h
      | some found =>
        simp only [hfound, Draw.pure_apply, Outcome.done.injEq] at h
        rw [← h.1]
        exact Weighted.select_mem hfound
  | failing error declared => simp [sample, Draw.fail_apply] at h

theorem sample_eq_failed {σ : Type} {sampler : Sampler} {e : SampleError} {s rest : Stream σ}
    (h : sampler.sample s = .failed e rest) : sampler.Barren := by
  cases sampler with
  | diminishing d =>
    rcases Draw.bind_eq_failed_iff.1 h with h | ⟨count, mid, _, h⟩
    · exact Draw.repeatsFrom_ne_failed _ _ _ _ _ h
    · simp [Draw.pure_apply] at h
  | weighted w =>
    simp only [sample, Weighted.sample] at h
    split at h
    · rename_i hempty
      simpa [Barren] using hempty
    · rename_i hne
      rcases Draw.bind_eq_failed_iff.1 h with h | ⟨x, mid, _, h⟩
      · exact absurd h (Draw.below_ne_failed _ _ _ _)
      · have hsome : (Weighted.select x w.choices).isSome :=
          Weighted.select_isSome (by simpa using hne)
        cases hfound : Weighted.select x w.choices with
        | none => simp [hfound] at hsome
        | some found => simp [hfound, Draw.pure_apply] at h
  | failing error declared => trivial

theorem mem_symbols_of_yields {sampler : Sampler} {sequence : List Symbol} {symbol : Symbol}
    (h : sampler.Yields sequence) (hmem : symbol ∈ sequence) : symbol ∈ sampler.symbols := by
  cases sampler with
  | diminishing d =>
    obtain ⟨count, rfl⟩ := h
    rw [symbols, List.mem_singleton]
    exact List.eq_of_mem_replicate hmem
  | weighted w =>
    obtain ⟨choice, hchoice, rfl⟩ := List.mem_map.1 h
    exact List.mem_flatMap.2 ⟨choice, hchoice, hmem⟩
  | failing error declared => exact h.elim

end Sampler

/-! ### Productions -/

/-- One alternative of a rule: a fixed sequence of symbols or a drawn one. -/
inductive Production where
  | sequence (symbols : List Symbol)
  | sampled (sampler : Sampler)

namespace Production

/-- The production of one symbol. -/
def one (symbol : Symbol) : Production :=
  sequence [symbol]

/-- The symbols that take the place of the rule this time. -/
def resolve {σ : Type} : Production → Draw σ SampleError (List Symbol)
  | sequence symbols => pure symbols
  | sampled sampler => sampler.sample

/-- Every symbol that may take the place of the rule. -/
def symbols : Production → List Symbol
  | sequence symbols => symbols
  | sampled sampler => sampler.symbols

/-- Every rule that may take the place of the rule. -/
def rules (p : Production) : List Rule :=
  p.symbols.filterMap Symbol.rule?

/-- The sequences that may take the place of the rule. -/
def Yields : Production → List Symbol → Prop
  | sequence symbols, replacement => replacement = symbols
  | sampled sampler, replacement => sampler.Yields replacement

/-- No sequence can be drawn. -/
def Barren : Production → Prop
  | sequence _ => False
  | sampled sampler => sampler.Barren

theorem resolve_eq_done {σ : Type} {p : Production} {replacement : List Symbol}
    {s rest : Stream σ} (h : p.resolve s = .done replacement rest) : p.Yields replacement := by
  cases p with
  | sequence symbols =>
    simp only [resolve, Draw.pure_apply, Outcome.done.injEq] at h
    exact h.1.symm
  | sampled sampler => exact Sampler.sample_eq_done h

theorem resolve_eq_failed {σ : Type} {p : Production} {e : SampleError} {s rest : Stream σ}
    (h : p.resolve s = .failed e rest) : p.Barren := by
  cases p with
  | sequence symbols => simp [resolve, Draw.pure_apply] at h
  | sampled sampler => exact Sampler.sample_eq_failed h

theorem mem_symbols_of_yields {p : Production} {replacement : List Symbol} {symbol : Symbol}
    (h : p.Yields replacement) (hmem : symbol ∈ replacement) : symbol ∈ p.symbols := by
  cases p with
  | sequence symbols => exact h ▸ hmem
  | sampled sampler => exact Sampler.mem_symbols_of_yields h hmem

theorem mem_rules {p : Production} {r : Rule} : r ∈ p.rules ↔ Symbol.rule r ∈ p.symbols := by
  simp only [rules, List.mem_filterMap]
  constructor
  · rintro ⟨s, hs, hr⟩
    cases s with
    | rule r' => simp only [Symbol.rule?, Option.some.injEq] at hr; exact hr ▸ hs
    | terminal t => simp [Symbol.rule?] at hr
  · intro h
    exact ⟨_, h, rfl⟩

end Production

end ScoreScript
