import ScoreScript.Grammar.Expansion
import ScoreScript.Proofs.Grammar.Reachability
import ScoreScript.Proofs.Result
import ScoreScript.Proofs.Tree.Numbering
import ScoreScript.Random.Listed

/-!
# Derivations

A tree is derived from a grammar when its terminals are leaves and the labels of the children of a
rule are a sequence that one of the rule's alternatives yields.  Growing a tree yields a derived one
within the limits, with its nodes numbered in preorder; it fails because of a limit, or because of a
defect of a rule that is reached from the root.

* `Grammar.Derives` — derivation trees;
* `Grammar.Grown`, `Grammar.grow_spec` — what is grown;
* `Grammar.Defect`, `Grammar.grow_failed` — why nothing is grown;
* `Grammar.expand_spec`, `Grammar.expand_failed` — the same for a whole tree;
* `Grammar.nested`, `Grammar.expand_nested` — a grammar of nested negations, and a tree of it.
-/

namespace ScoreScript

namespace Grammar

variable {σ : Type}

/-- The derivation trees of a grammar. -/
inductive Derives (g : Grammar) : Tree → Prop
  | terminal (id : NodeId) (t : Terminal) : Derives g (.node id (.terminal t) [])
  | rule (id : NodeId) {r : Rule} {p : Production} {children : List Tree} :
      p ∈ g.alternatives r → p.Yields (children.map Tree.label) →
      (∀ child ∈ children, Derives g child) → Derives g (.node id (.rule r) children)

/-- Whatever an alternative of a reached rule yields is reached. -/
theorem Reaches.of_yields {g : Grammar} {root r r' : Rule} {p : Production} {symbols : List Symbol}
    (hr : g.Reaches root r) (hp : p ∈ g.alternatives r) (hyields : p.Yields symbols)
    (hmem : Symbol.rule r' ∈ symbols) : g.Reaches root r' :=
  .mention hr (mem_mentions.2 ⟨p, hp, Production.mem_symbols_of_yields hyields hmem⟩)

/-! ### Replacing a rule -/

theorem replacement_eq_done {g : Grammar} {r : Rule} {symbols : List Symbol} {s rest : Stream σ}
    (h : g.replacement r s = .done symbols rest) :
    ∃ p ∈ g.alternatives r, p.Yields symbols := by
  obtain ⟨choice, mid, hchoice, h⟩ := Draw.bind_eq_done_iff.1 h
  rcases Draw.element_eq_done hchoice with ⟨_, rfl⟩ | ⟨p, hp, rfl⟩
  · simp [Draw.fail_apply] at h
  · exact ⟨p, hp, Production.resolve_eq_done (Draw.mapError_eq_done_iff.1 h)⟩

/-- The errors for which a rule itself is to blame: it has no alternatives, or one of them has
nothing to draw from. -/
inductive Defect (g : Grammar) (r : Rule) : GenerateError → Prop
  | missing : g.alternatives r = [] → Defect g r (.missingRule r)
  | barren {p : Production} (error : SampleError) :
      p ∈ g.alternatives r → p.Barren → Defect g r (.sample r error)

theorem replacement_eq_failed {g : Grammar} {r : Rule} {e : GenerateError} {s rest : Stream σ}
    (h : g.replacement r s = .failed e rest) : g.Defect r e := by
  rcases Draw.bind_eq_failed_iff.1 h with h | ⟨choice, mid, hchoice, h⟩
  · exact absurd h (Draw.element_ne_failed _ _ _ _)
  · rcases Draw.element_eq_done hchoice with ⟨hnil, rfl⟩ | ⟨p, hp, rfl⟩
    · simp only [Draw.fail_apply, Outcome.failed.injEq] at h
      rw [← h.1]
      exact .missing hnil
    · obtain ⟨error, herror, rfl⟩ := Draw.mapError_eq_failed_iff.1 h
      exact .barren error hp (Production.resolve_eq_failed herror)

/-! ### What is grown -/

/-- The tree `t` is grown under a symbol with `levels` levels left, its nodes being numbered from
`next` up to but not including `after`. -/
structure Grown (g : Grammar) (limits : Limits) (levels : Nat) (s : Symbol) (next : Nat) (t : Tree)
    (after : Nat) : Prop where
  label_eq : t.label = s
  derives : g.Derives t
  levels_le : t.levels ≤ levels
  numbered_eq : t.numbered next = t
  after_eq : after = next + t.nodes
  after_le : after ≤ limits.nodes

/-- The trees `ts` are grown under symbols from left to right. -/
structure GrownAll (g : Grammar) (levels : Nat) (symbols : List Symbol) (next : Nat)
    (ts : List Tree) (after : Nat) : Prop where
  labels_eq : ts.map Tree.label = symbols
  derives : ∀ t ∈ ts, g.Derives t
  levels_le : Tree.levelsAll ts ≤ levels
  numbered_eq : Tree.numberedAll next ts = ts
  after_eq : after = next + Tree.nodesAll ts

theorem growAll_spec {g : Grammar} {limits : Limits} {levels : Nat}
    {grow : Symbol → Nat → Draw σ GenerateError (Tree × Nat)}
    (hgrow : ∀ s next stream rest t after, grow s next stream = .done (t, after) rest →
      g.Grown limits levels s next t after)
    (symbols : List Symbol) (next : Nat) (stream rest : Stream σ) (ts : List Tree) (after : Nat)
    (hnext : next ≤ limits.nodes) (h : growAll grow symbols next stream = .done (ts, after) rest) :
    g.GrownAll levels symbols next ts after ∧ after ≤ limits.nodes := by
  induction symbols generalizing next stream rest ts with
  | nil =>
    simp only [growAll, Draw.pure_apply, Outcome.done.injEq, Prod.mk.injEq] at h
    obtain ⟨⟨rfl, rfl⟩, _⟩ := h
    exact ⟨⟨rfl, by simp, Nat.zero_le _, rfl, rfl⟩, hnext⟩
  | cons s symbols ih =>
    have hafter := numbered_growAll (fun _ _ _ _ _ _ ht => (hgrow _ _ _ _ _ _ ht).after_eq)
      _ _ _ _ _ _ h
    simp only [growAll, Draw.bind_eq_done_iff, Draw.pure_apply, Outcome.done.injEq,
      Prod.mk.injEq, Prod.exists] at h
    obtain ⟨t, mid, stream₁, ht, us, last, stream₂, hus, ⟨rfl, rfl⟩, _⟩ := h
    have hfirst := hgrow _ _ _ _ _ _ ht
    obtain ⟨hothers, hlast⟩ := ih _ _ _ _ hfirst.after_le hus
    refine ⟨⟨?_, ?_, ?_, ?_, hafter⟩, hlast⟩
    · rw [List.map_cons, hfirst.label_eq, hothers.labels_eq]
    · intro u hu
      rcases List.mem_cons.1 hu with rfl | hu
      · exact hfirst.derives
      · exact hothers.derives u hu
    · rw [Tree.levelsAll]
      exact Nat.max_le.2 ⟨hfirst.levels_le, hothers.levels_le⟩
    · rw [Tree.numberedAll, hfirst.numbered_eq, ← hfirst.after_eq, hothers.numbered_eq]

/-- **Growing.**  What is grown is a derivation tree within the limits, numbered in preorder. -/
theorem grow_spec (g : Grammar) (limits : Limits) (levels : Nat) (s : Symbol) (next : Nat)
    (stream rest : Stream σ) (t : Tree) (after : Nat)
    (h : g.grow limits levels s next stream = .done (t, after) rest) :
    g.Grown limits levels s next t after := by
  induction levels generalizing s next stream rest t after with
  | zero => simp [grow, Draw.fail_apply] at h
  | succ levels ih =>
    have hafter := numbered_grow g limits _ _ _ _ _ _ _ h
    simp only [grow] at h
    split at h
    · simp [Draw.fail_apply] at h
    · rename_i hroom
      cases s with
      | terminal term =>
        simp only [Draw.pure_apply, Outcome.done.injEq, Prod.mk.injEq] at h
        obtain ⟨⟨rfl, rfl⟩, _⟩ := h
        refine ⟨rfl, .terminal _ _, ?_, rfl, hafter, by omega⟩
        rw [Tree.levels, Tree.levelsAll]
        omega
      | rule r =>
        simp only [Draw.bind_eq_done_iff, Draw.pure_apply, Outcome.done.injEq, Prod.mk.injEq,
          Prod.exists] at h
        obtain ⟨symbols, stream₁, hsymbols, ts, last, stream₂, hts, ⟨rfl, rfl⟩, _⟩ := h
        obtain ⟨p, hp, hyields⟩ := replacement_eq_done hsymbols
        obtain ⟨hchildren, hlast⟩ := growAll_spec ih _ _ _ _ _ _ (by omega) hts
        have hderives := Derives.rule (UInt32.ofNat next) hp (hchildren.labels_eq ▸ hyields)
          hchildren.derives
        refine ⟨rfl, hderives, ?_, ?_, hafter, hlast⟩
        · have := hchildren.levels_le
          rw [Tree.levels]
          omega
        · rw [Tree.numbered, hchildren.numbered_eq]

/-! ### Why nothing is grown -/

/-- A limit is exceeded. -/
inductive LimitHit (limits : Limits) : GenerateError → Prop
  | depth : LimitHit limits (.limit (.tooDeep limits.depth))
  | nodes : LimitHit limits (.limit (.tooManyNodes limits.nodes))

theorem LimitHit.isRetryable {limits : Limits} (e : GenerateError) (h : LimitHit limits e) :
    e.isRetryable = true := by
  cases h <;> rfl

/-- A limit is exceeded, or a rule that is reached from the root has a defect. -/
def Blocked (g : Grammar) (limits : Limits) (root : Rule) (e : GenerateError) : Prop :=
  LimitHit limits e ∨ ∃ r, g.Reaches root r ∧ g.Defect r e

theorem growAll_failed {g : Grammar} {limits : Limits} {root : Rule}
    {grow : Symbol → Nat → Draw σ GenerateError (Tree × Nat)} {reached : Symbol → Prop}
    (hgrow : ∀ s next stream rest e, reached s → grow s next stream = .failed e rest →
      g.Blocked limits root e)
    (symbols : List Symbol) (hreached : ∀ s ∈ symbols, reached s) (next : Nat)
    (stream rest : Stream σ) (e : GenerateError)
    (h : growAll grow symbols next stream = .failed e rest) : g.Blocked limits root e := by
  induction symbols generalizing next stream with
  | nil => simp [growAll, Draw.pure_apply] at h
  | cons s symbols ih =>
    rw [growAll] at h
    rcases Draw.bind_eq_failed_iff.1 h with h | ⟨⟨t, mid⟩, stream₁, _, h⟩
    · exact hgrow _ _ _ _ _ (hreached s List.mem_cons_self) h
    · rcases Draw.bind_eq_failed_iff.1 h with h | ⟨⟨us, last⟩, stream₂, _, h⟩
      · exact ih (fun s hs => hreached s (List.mem_cons_of_mem _ hs)) _ _ h
      · simp [Draw.pure_apply] at h

/-- **Failing to grow.**  Either a limit is exceeded or a rule has a defect. -/
theorem grow_failed (g : Grammar) (limits : Limits) (root : Rule) (levels : Nat) (s : Symbol)
    (hs : ∀ r, s = .rule r → g.Reaches root r) (next : Nat) (stream rest : Stream σ)
    (e : GenerateError) (h : g.grow limits levels s next stream = .failed e rest) :
    g.Blocked limits root e := by
  induction levels generalizing s next stream rest e with
  | zero =>
    simp only [grow, Draw.fail_apply, Outcome.failed.injEq] at h
    rw [← h.1]
    exact Or.inl .depth
  | succ levels ih =>
    simp only [grow] at h
    split at h
    · simp only [Draw.fail_apply, Outcome.failed.injEq] at h
      rw [← h.1]
      exact Or.inl .nodes
    · cases s with
      | terminal term => simp [Draw.pure_apply] at h
      | rule r =>
        have hr := hs r rfl
        rcases Draw.bind_eq_failed_iff.1 h with h | ⟨symbols, stream₁, hsymbols, h⟩
        · exact Or.inr ⟨r, hr, replacement_eq_failed h⟩
        · obtain ⟨p, hp, hyields⟩ := replacement_eq_done hsymbols
          rcases Draw.bind_eq_failed_iff.1 h with h | ⟨⟨ts, last⟩, stream₂, _, h⟩
          · refine growAll_failed (fun s next stream rest e hs h => ih s hs next stream rest e h)
              symbols ?_ _ _ _ _ h
            rintro s hs r' rfl
            exact hr.of_yields hp hyields hs
          · simp [Draw.pure_apply] at h

/-! ### Whole trees -/

theorem expand_spec {g : Grammar} {root : Rule} {limits : Limits} {stream rest : Stream σ}
    {t : Tree} (h : g.expand root limits stream = .done t rest) :
    g.Grown limits limits.depth (.rule root) 0 t t.nodes := by
  obtain ⟨⟨t', after⟩, mid, hgrow, h⟩ := Draw.bind_eq_done_iff.1 h
  simp only [Draw.pure_apply, Outcome.done.injEq] at h
  obtain ⟨rfl, _⟩ := h
  have hgrown := grow_spec g limits _ _ _ _ _ _ _ hgrow
  have hafter := hgrown.after_eq
  rw [Nat.zero_add] at hafter
  exact hafter ▸ hgrown

theorem expand_failed {g : Grammar} {root : Rule} {limits : Limits} {stream rest : Stream σ}
    {e : GenerateError} (h : g.expand root limits stream = .failed e rest) :
    g.Blocked limits root e := by
  rcases Draw.bind_eq_failed_iff.1 h with h | ⟨⟨t, after⟩, mid, _, h⟩
  · refine grow_failed g limits root _ _ ?_ _ _ _ _ h
    intro r hr
    injection hr with hr
    exact hr ▸ .root
  · simp [Draw.pure_apply] at h

/-! ### A small grammar -/

/-- Any number of blocks, each with an action under a state that is negated again and again.
Disjunctions are registered without alternatives, and nothing mentions them. -/
def nested : Grammar :=
  ofRules [
    (.start, [.sampled (.diminishing ⟨0.5, .rule .block⟩)]),
    (.block, [.sequence [.rule .condition, .terminal .action]]),
    (.condition,
      [.sampled (.weighted ⟨[(1.0, [.rule .negation]), (3.0, [.terminal .state])], 4.0⟩)]),
    (.negation, [.one (.rule .condition)]),
    (.disjunction, [])]

/-- Words for one block with one negation. -/
def nestedWords : Stream Listed.State :=
  .start Listed.source ⟨[0, 0, 0xFFFFFFFFFFFFFFFF, 0, 0, 0, 0, 0, 0x8000000000000000], 0⟩ 20

theorem expand_nested :
    ∃ t rest, nested.expand .start ⟨6, 7⟩ nestedWords = .done t rest ∧ t.depth = 6 ∧ t.size = 7 := by
  have hgrows : (nested.expand .start ⟨6, 7⟩ nestedWords).any
      (fun t _ => t.depth == 6 && t.size == 7) = true := by decide +kernel
  obtain ⟨t, rest, hexpand, hsize⟩ := Outcome.exists_of_any hgrows
  rw [Bool.and_eq_true, beq_iff_eq, beq_iff_eq] at hsize
  exact ⟨t, rest, hexpand, hsize⟩

end Grammar

end ScoreScript
