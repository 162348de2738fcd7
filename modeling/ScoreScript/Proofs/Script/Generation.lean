import ScoreScript.Generator
import ScoreScript.Proofs.Script.Derived

/-!
# Generation

A generator that could be made never refuses what it grows: every tree of its grammar has a text and
compiles, and its grammar has neither rules without alternatives nor samplers with nothing to draw
from.  What remains are the limits, and these are tried again until the attempts are used up.

* `Generator.Made`, `Generator.make_eq_ok` — what a generator that was made consists of;
* `Generator.Made.assemble_of_derives` — derivation trees are scripts;
* `Draw.retry_eq_failed` — what is left of failures that may go away;
* `Generator.generation_sound` — trees are never refused, and only limits stop generation;
* `Generator.exists_script`, `Generator.exists_generated` — scripts of which evaluation tells something.
-/

namespace ScoreScript

variable {S A σ : Type}

/-! ### Trying again -/

/-- If every failure of a computation may go away, its repetition fails with the last of them. -/
theorem Draw.retry_eq_failed {α : Type} {attempts : Nat} {x : Draw σ GenerateError α}
    {P : GenerateError → Prop} (hretryable : ∀ e, P e → e.isRetryable = true)
    (hx : ∀ s rest e, x s = .failed e rest → P e) (left : Nat) (s rest : Stream σ)
    (e : GenerateError) (h : x.retry attempts left s = .failed e rest) :
    ∃ last, P last ∧ e = .exhausted attempts last := by
  induction left generalizing s with
  | zero =>
    rw [retry] at h
    cases hs : x s with
    | dry => simp [hs] at h
    | done value mid => simp [hs] at h
    | failed e' mid =>
      have he' := hx _ _ _ hs
      simp only [hs, hretryable e' he', if_true, Outcome.failed.injEq] at h
      exact ⟨e', he', h.1.symm⟩
  | succ left ih =>
    rw [retry] at h
    cases hs : x s with
    | dry => simp [hs] at h
    | done value mid => simp [hs] at h
    | failed e' mid =>
      simp only [hs, hretryable e' (hx _ _ _ hs), if_true] at h
      exact ih _ h

/-- What a repetition finishes with is what one of the attempts finished with. -/
theorem Draw.retry_eq_done {α : Type} {attempts : Nat} {x : Draw σ GenerateError α} (left : Nat)
    (s rest : Stream σ) (value : α) (h : x.retry attempts left s = .done value rest) :
    ∃ mid, x mid = .done value rest := by
  induction left generalizing s with
  | zero =>
    rw [retry] at h
    cases hs : x s with
    | dry => simp [hs] at h
    | done value' mid =>
      simp only [hs] at h
      exact ⟨s, hs.trans h⟩
    | failed e mid =>
      simp only [hs] at h
      split at h <;> exact absurd h (by simp)
  | succ left ih =>
    rw [retry] at h
    cases hs : x s with
    | dry => simp [hs] at h
    | done value' mid =>
      simp only [hs] at h
      exact ⟨s, hs.trans h⟩
    | failed e mid =>
      simp only [hs] at h
      split at h
      · exact ih _ h
      · exact absurd h (by simp)

namespace Generator

/-! ### Making -/

/-- The generator `g` was made of a catalog under a configuration. -/
structure Made (catalog : Catalog S A) (config : Config) (g : Generator S A) : Prop where
  built : Grammar.Built catalog.predicates config g.grammar
  catalog_eq : g.catalog = catalog
  config_eq : g.config = config

theorem make_eq_ok {catalog : Catalog S A} {config : Config} {g : Generator S A}
    (h : make catalog config = .ok g) : Made catalog config g := by
  obtain ⟨grammar, hbuild, rfl⟩ := Result.map_eq_ok_iff.1 h
  exact ⟨Grammar.build_eq_ok hbuild, rfl, rfl⟩

namespace Made

variable {catalog : Catalog S A} {config : Config} {g : Generator S A}

/-- Every derivation tree from the start is a script. -/
theorem assemble_of_derives (h : Made catalog config g) {t : Tree} (ht : g.grammar.Derives t)
    (hlabel : t.label = .rule .start) : ∃ script, g.assemble t = .ok script := by
  obtain ⟨text, htext⟩ := h.built.renders ht
  obtain ⟨blocks, hblocks⟩ := h.built.compiles ht _ hlabel
  refine ⟨⟨t, text, blocks, g.catalog⟩, Script.assemble_eq_ok_iff.2 ⟨rfl, rfl, htext, ?_⟩⟩
  rw [h.catalog_eq, h.built.scoreRange_eq]
  exact hblocks

/-- Nothing but a limit keeps a tree from growing. -/
theorem expand_failed (h : Made catalog config g) {limits : Limits} {stream rest : Stream σ}
    {e : GenerateError} (he : g.grammar.expand .start limits stream = .failed e rest) :
    Grammar.LimitHit limits e := by
  rcases Grammar.expand_failed he with hlimit | ⟨r, hr, hdefect⟩
  · exact hlimit
  · exfalso
    cases hdefect with
    | missing hnil => exact h.built.alternatives_ne_nil hr hnil
    | barren error hp hbarren => exact h.built.not_barren hp hbarren

/-- What is grown is a script. -/
theorem assemble_of_expand (h : Made catalog config g) {limits : Limits} {stream rest : Stream σ}
    {t : Tree} (ht : g.grammar.expand .start limits stream = .done t rest) :
    ∃ script, g.assemble t = .ok script := by
  have hgrown := Grammar.expand_spec ht
  exact h.assemble_of_derives hgrown.derives hgrown.label_eq

/-- One attempt fails only at a limit. -/
theorem attempt_failed (h : Made catalog config g) {stream rest : Stream σ} {e : GenerateError}
    (he : g.attempt stream = .failed e rest) : Grammar.LimitHit config.limits e := by
  rcases Draw.bind_eq_failed_iff.1 he with he | ⟨t, mid, ht, he⟩
  · exact h.config_eq ▸ h.expand_failed he
  · obtain ⟨script, hscript⟩ := h.assemble_of_expand ht
    rw [hscript] at he
    exact absurd he (by simp [Draw.ofExcept, Draw.succeed])

end Made

theorem compileTree_eq_ok_iff {g : Generator S A} {t : Tree} {script : Script S A} :
    g.compileTree t = .ok script ↔
      t.checkLimits g.config.limits = .ok () ∧ g.assemble t = .ok script := by
  unfold compileTree
  cases hlimits : t.checkLimits g.config.limits with
  | error e => simp
  | ok _ => simp

theorem tree_eq_of_compileTree {g : Generator S A} {t : Tree} {script : Script S A}
    (h : g.compileTree t = .ok script) : script.tree = t :=
  (Script.assemble_eq_ok_iff.1 (compileTree_eq_ok_iff.1 h).2).1

/-- A script that was generated comes from a tree grown within the limits. -/
theorem generate_eq_done {g : Generator S A} {stream rest : Stream σ} {script : Script S A}
    (h : g.generate stream = .done script rest) :
    ∃ start mid : Stream σ,
      g.grammar.expand .start g.config.limits start = .done script.tree mid ∧
      g.assemble script.tree = .ok script := by
  obtain ⟨start, hattempt⟩ := Draw.retry_eq_done _ _ _ _ h
  obtain ⟨t, mid, ht, hassemble⟩ := Draw.bind_eq_done_iff.1 hattempt
  cases hscript : g.assemble t with
  | error e => simp [hscript, Draw.ofExcept, Draw.fail] at hassemble
  | ok script' =>
    simp only [hscript, Draw.ofExcept, Draw.succeed, Outcome.done.injEq] at hassemble
    obtain ⟨rfl, _⟩ := hassemble
    have htree : script'.tree = t := (Script.assemble_eq_ok_iff.1 hscript).1
    rw [htree]
    exact ⟨start, mid, ht, hscript⟩

/-- **Generation is sound.**  Every tree that grows from the grammar of a generator, under any
limits and from any words, is a script.  Generation either uses up the words, or ends with the
script of a tree, or reports that the last attempt exceeded a limit. -/
theorem generation_sound {catalog : Catalog S A} {config : Config} {g : Generator S A}
    (h : make catalog config = .ok g) :
    (∀ {σ : Type} (limits : Limits) (stream rest : Stream σ) (t : Tree),
      g.grammar.expand .start limits stream = .done t rest → ∃ script, g.assemble t = .ok script) ∧
    ∀ {σ : Type} (stream : Stream σ),
      g.generate stream = .dry ∨
      (∃ script rest, g.generate stream = .done script rest ∧
        g.assemble script.tree = .ok script) ∨
      ∃ error rest, g.generate stream = .failed (.exhausted config.attempts (.limit error)) rest ∧
        (error = .tooDeep config.limits.depth ∨ error = .tooManyNodes config.limits.nodes) := by
  have hmade := make_eq_ok h
  refine ⟨fun limits stream rest t ht => hmade.assemble_of_expand ht, ?_⟩
  intro σ stream
  cases hrun : g.generate stream with
  | dry => exact Or.inl rfl
  | done script rest =>
    obtain ⟨_, _, _, hassemble⟩ := generate_eq_done hrun
    exact Or.inr (Or.inl ⟨script, rest, rfl, hassemble⟩)
  | failed e rest =>
    obtain ⟨last, hlast, rfl⟩ := Draw.retry_eq_failed Grammar.LimitHit.isRetryable
      (fun _ _ _ he => hmade.attempt_failed he) _ _ _ _ hrun
    rw [hmade.config_eq]
    cases hlast with
    | depth => exact Or.inr (Or.inr ⟨_, rest, rfl, Or.inl rfl⟩)
    | nodes => exact Or.inr (Or.inr ⟨_, rest, rfl, Or.inr rfl⟩)

end Generator

/-! ### A small generator -/

/-- A catalog with a truth value and a number, one of them with a choice. -/
def Catalog.small : Catalog Unit Unit :=
  ⟨[(⟨"stab", [.action], .bool⟩, fun _ _ _ => .bool true),
    (⟨"boost", [.state, .choice .baseStat], .statModifier⟩, fun _ _ _ => .int 2)]⟩

/-- Words of which the third, as a word of 64 bits, ends a repetition. -/
def WordSource.small : WordSource Nat where
  next32 n := (UInt32.ofNat (n * 1500000000), n + 1)
  next64 n := (if n = 2 then 0xFFFFFFFFFFFFFFFF else 0, n + 1)

namespace Generator

/-- The generator of a catalog compiles a tree and the script passes a test, if evaluation says so. -/
theorem exists_script (catalog : Catalog S A) (t : Tree) (p : Script S A → Bool)
    (h : (make catalog .default).toOption.any
      (fun g => (g.compileTree t).toOption.any p) = true) :
    ∃ g script, make catalog .default = .ok g ∧ g.compileTree t = .ok script ∧
      p script = true := by
  obtain ⟨g, hg, hcompiles⟩ := Result.exists_of_any h
  obtain ⟨script, hscript, htest⟩ := Result.exists_of_any hcompiles
  exact ⟨g, script, hg, hscript, htest⟩

/-- The generator of a catalog makes a script, which passes a test together with the generator and the
rest of the words, if evaluation says so. -/
theorem exists_generated (catalog : Catalog S A) (config : Config) (s : Stream σ)
    (p : Generator S A → Script S A → Stream σ → Bool)
    (h : (make catalog config).toOption.any (fun g => (g.generate s).any (p g)) = true) :
    ∃ g script rest, make catalog config = .ok g ∧ g.generate s = .done script rest ∧
      p g script rest = true := by
  obtain ⟨g, hg, hgenerates⟩ := Result.exists_of_any h
  obtain ⟨script, rest, hrun, htest⟩ := Outcome.exists_of_any hgenerates
  exact ⟨g, script, rest, hg, hrun, htest⟩

theorem make_small : ∃ g, make Catalog.small .default = .ok g := by
  have hmakes : (make Catalog.small .default).toOption.any (fun _ => true) = true := by
    decide +kernel
  obtain ⟨g, hg, _⟩ := Result.exists_of_any hmakes
  exact ⟨g, hg⟩

/-- The small words make a script of one block. -/
theorem generate_small :
    ∃ g script rest, make Catalog.small .default = .ok g ∧
      g.generate (.start WordSource.small 0 100) = .done script rest ∧
      script.blocks.length = 1 := by
  obtain ⟨g, script, rest, hg, hrun, hlength⟩ :=
    exists_generated Catalog.small .default (.start WordSource.small 0 100)
      (fun _ script _ => script.blocks.length == 1) (by decide +kernel)
  exact ⟨g, script, rest, hg, hrun, beq_iff_eq.1 hlength⟩

/-- The small generator grows a tree from the small words, which is a script, and makes a script of one
block, which comes of its own tree. -/
theorem generation_sound_small :
    ∃ g t rest script, make Catalog.small .default = .ok g ∧
      g.grammar.expand .start .default (.start WordSource.small 0 100) = .done t rest ∧
      g.assemble t = .ok script ∧
      ∃ made rest', g.generate (.start WordSource.small 0 100) = .done made rest' ∧
        g.assemble made.tree = .ok made ∧ made.source = "if (stab(action)): score += 2\n" ∧
        made.blocks = [⟨1, .call 5 ⟨0, ⟨"stab", [.action], .bool⟩, []⟩, 2⟩] := by
  obtain ⟨g, made, rest', hg, hrun, htest⟩ :=
    exists_generated Catalog.small .default (.start WordSource.small 0 100)
      (fun g made _ =>
        (g.grammar.expand .start .default (.start WordSource.small 0 100)).any (fun _ _ => true) &&
          made.source == "if (stab(action)): score += 2\n" &&
          made.blocks == [⟨1, .call 5 ⟨0, ⟨"stab", [.action], .bool⟩, []⟩, 2⟩]) (by decide +kernel)
  rw [Bool.and_eq_true, Bool.and_eq_true, beq_iff_eq, beq_iff_eq] at htest
  obtain ⟨⟨hgrows, hsource⟩, hblocks⟩ := htest
  obtain ⟨t, rest, hexpand, _⟩ := Outcome.exists_of_any hgrows
  obtain ⟨hassembles, hgenerates⟩ := generation_sound hg
  obtain ⟨script, hscript⟩ := hassembles _ _ _ _ hexpand
  refine ⟨g, t, rest, script, hg, hexpand, hscript, made, rest', hrun, ?_, hsource, hblocks⟩
  rcases hgenerates (.start WordSource.small 0 100) with hdry | ⟨_, _, hdone, hassemble⟩ |
    ⟨_, _, hfailed, _⟩
  · exact absurd (hrun.symm.trans hdry) (by simp)
  · obtain ⟨rfl, _⟩ := Outcome.done.inj (hrun.symm.trans hdone)
    exact hassemble
  · exact absurd (hrun.symm.trans hfailed) (by simp)

end Generator

end ScoreScript
