import ScoreScript.Proofs.Cache.Normalization

/-!
# Accepted scripts are stable

Trees are kept within the limits in three places: growing counts nodes and levels as it goes, reading
counts entries and open nodes, and compiling visits the finished tree.  What the first two let through,
the third lets through as well.  So however a script came about, its tree is within the limits, and
compiling that tree gives the script again.

* `Listing.Fits`, `Listing.place_fits` — what is below the open nodes stays within the levels;
* `Listing.checkLimits_of_toTree` — trees that are read are within the limits;
* `Generator.accepts_iff_recompiles` — the scripts that a generator accepts are those that it makes of
  their own trees.
-/

namespace ScoreScript

variable {S A : Type}

/-! ### Trees that are read -/

namespace Listing

variable {count : Nat} {limits : Limits}

/-- What has been found below the open nodes, of which the innermost is on the lowest level, stays
within so many levels. -/
def Fits (levels : Nat) : List Frame → Prop
  | [] => True
  | f :: rest => rest.length + 1 + Tree.levelsAll f.found ≤ levels ∧ Fits levels rest

/-- A tree that fits below the open nodes takes its place there, and whatever it completes fits as
well. -/
theorem place_fits {levels : Nat} {t : Tree} {opened : List Frame}
    (ht : opened.length + t.levels ≤ levels) (hopened : Fits levels opened) :
    Fits levels (Frame.place t opened).1 ∧
      ∀ root, (Frame.place t opened).2 = some root → root.levels ≤ levels := by
  fun_induction Frame.place t opened with
  | case1 t =>
    refine ⟨trivial, fun root hroot => ?_⟩
    rw [List.length_nil, Nat.zero_add] at ht
    exact Option.some.inj hroot ▸ ht
  | case2 t f rest hwaiting ih =>
    obtain ⟨hf, hrest⟩ := hopened
    have hclose : (f.close t).levels = 1 + max t.levels (Tree.levelsAll f.found) := by
      rw [Frame.close, Tree.levels, Tree.levelsAll_reverse, Tree.levelsAll]
    rw [List.length_cons] at ht
    apply ih _ hrest
    omega
  | case3 t f rest waiting hwaiting =>
    obtain ⟨hf, hrest⟩ := hopened
    rw [List.length_cons] at ht
    refine ⟨⟨?_, hrest⟩, fun root hroot => by cases hroot⟩
    rw [Tree.levelsAll]
    omega

/-- The tree that a listing leads to stays within the levels. -/
theorem levels_of_build {index : Nat} {opened : List Frame} {root : Option Tree} {listing : Listing}
    {t : Tree} (hopened : Fits limits.depth opened)
    (hroot : ∀ t, root = some t → t.levels ≤ limits.depth)
    (h : build count limits index opened root listing = .ok t) : t.levels ≤ limits.depth := by
  induction listing generalizing index opened root with
  | nil =>
    cases root with
    | none => cases h
    | some t' =>
      obtain rfl : t' = t := Except.ok.inj h
      exact hroot t' rfl
  | cons entry rest ih =>
    obtain ⟨_, hdepth, label, _, hleaf | hopen⟩ := build_cons_eq_ok h
    · obtain ⟨_, hrest⟩ := hleaf
      have hleaf : opened.length + (Tree.node (UInt32.ofNat index) label []).levels ≤
          limits.depth := hdepth
      obtain ⟨hopened', hroot'⟩ := place_fits hleaf hopened
      exact ih hopened' hroot' hrest
    · obtain ⟨waiting, _, _, hrest⟩ := hopen
      have hopened' : Fits limits.depth (⟨UInt32.ofNat index, label, [], waiting⟩ :: opened) :=
        ⟨hdepth, hopened⟩
      exact ih hopened' (fun _ hnone => by cases hnone) hrest

/-- Trees that are read are within the limits. -/
theorem checkLimits_of_toTree {listing : Listing} {t : Tree}
    (h : listing.toTree count limits = .ok t) : t.checkLimits limits = .ok () := by
  have hstart : Fits limits.depth [] := trivial
  have hlevels : t.levels ≤ limits.depth :=
    levels_of_build hstart (fun _ hnone => by cases hnone) (build_of_toTree h)
  have hnodes : t.nodes ≤ limits.nodes := by
    rw [← length_of_toTree h]
    rw [toTree] at h
    split at h
    · cases h
    · rename_i hmany
      exact Nat.not_lt.1 hmany
  exact Tree.checkLimits_eq_ok_iff.2 ⟨hlevels, hnodes⟩

end Listing

namespace Generator

theorem checkLimits_of_readTree {g : Generator S A} {bytes : List UInt8} {t : Tree}
    (h : g.readTree bytes = .ok t) : t.checkLimits g.config.limits = .ok () := by
  obtain ⟨_, p, _, _, htree⟩ := readTree_eq_ok_iff.1 h
  obtain ⟨_, _, hlisting⟩ := Payload.toTree_eq_ok_iff.1 htree
  exact Listing.checkLimits_of_toTree hlisting

/-! ### Accepted scripts -/

/-- **Accepted scripts are stable.**  A script is accepted by a generator, in whichever way, exactly if
its tree is within the limits, its text is that of the tree, and compiling the tree gives the script
again, blocks and numbers included.  What is grown and what is read passes the check that compiling
makes. -/
theorem accepts_iff_recompiles (g : Generator S A) :
    (∀ script : Script S A, g.Accepts script ↔
      script.tree.depth ≤ g.config.limits.depth ∧ script.tree.size ≤ g.config.limits.nodes ∧
        script.tree.render = .ok script.source ∧ g.compileTree script.tree = .ok script) ∧
    (∀ {σ : Type} (stream rest : Stream σ) (t : Tree),
      g.grammar.expand .start g.config.limits stream = .done t rest →
        t.checkLimits g.config.limits = .ok ()) ∧
    ∀ (bytes : List UInt8) (t : Tree),
      g.readTree bytes = .ok t → t.checkLimits g.config.limits = .ok () := by
  refine ⟨fun script => ?_, fun stream rest t ht => ?_, fun bytes t ht => ?_⟩
  · constructor
    · intro h
      obtain ⟨hlevels, hnodes⟩ := Tree.checkLimits_eq_ok_iff.1 h.checkLimits_eq
      obtain ⟨_, _, hrender, _⟩ := Script.assemble_eq_ok_iff.1 h.assemble_eq
      rw [Tree.depth_eq_levels, Tree.size_eq_nodes]
      exact ⟨hlevels, hnodes, hrender, h.compileTree_eq⟩
    · rintro ⟨_, _, _, hcompile⟩
      exact .compiled hcompile
  · have hgrown := Grammar.expand_spec ht
    exact Tree.checkLimits_eq_ok_iff.2 ⟨hgrown.levels_le, hgrown.after_le⟩
  · exact checkLimits_of_readTree ht

/-- The script of the small words, which is read back from its bytes, is within the limits and is the
script of its tree. -/
theorem accepts_iff_recompiles_small :
    ∃ g script rest, make Catalog.small .default = .ok g ∧
      g.generate (.start WordSource.small 0 100) = .done script rest ∧
      g.load script.toBytes = .ok script ∧ script.tree.depth ≤ 32 ∧
      script.tree.size ≤ 512 ∧ g.compileTree script.tree = .ok script := by
  obtain ⟨g, script, rest, hg, hrun, _, hload⟩ := reload_small
  obtain ⟨hdepth, hsize, _, hcompile⟩ := ((accepts_iff_recompiles g).1 script).1 (.loaded hload)
  rw [(make_eq_ok hg).config_eq] at hdepth hsize
  exact ⟨g, script, rest, hg, hrun, hload, hdepth, hsize, hcompile⟩

end Generator

end ScoreScript
