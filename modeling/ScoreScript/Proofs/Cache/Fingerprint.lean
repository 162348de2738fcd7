import ScoreScript.Catalog.Registry
import ScoreScript.Proofs.Cache.Acceptance
import ScoreScript.Proofs.Cache.Signatures

/-!
# Fingerprints of catalogs

The digest of a catalog is the hash of its text.  Among catalogs whose names do not begin with a
line a digest belongs to one catalog, and a stored script loads under no other one.  With names that
do, two catalogs may have one text, and the scripts of one load under the other.

That hashes tell texts apart is assumed of the two texts at hand alone.

* `Reader.Extends` — bytes behind those that a reader took do not matter to it;
* `Payload.digest_eq_of_run` — so the digest is read though the bytes are cut off behind it;
* `Generator.digest_eq_of_load_toBytes` — a script that loads was stored under the same digest;
* `Generator.catalogDigest_eq_iff` — which catalogs digests and stored scripts tell apart;
* `Generator.load_toBytes_shifted` — a script that loads under a catalog that is not its own.
-/

namespace ScoreScript

/-! ### Bytes behind -/

namespace Reader

variable {α β : Type}

/-- What a reader made of some bytes it also makes with more bytes behind them. -/
def Extends (x : Reader α) : Prop :=
  ∀ c value rest, x c = some (value, rest) → ∀ more,
    x ⟨c.bytes ++ more, c.budget⟩ = some (value, ⟨rest.bytes ++ more, rest.budget⟩)

theorem Extends.pure (value : α) : (pure value : Reader α).Extends := by
  intro c value' rest h more
  obtain ⟨rfl, rfl⟩ := Prod.mk.inj (Option.some.inj h)
  rfl

theorem Extends.fail : (fail : Reader α).Extends := by
  intro c value rest h
  cases h

theorem Extends.bind {x : Reader α} {f : α → Reader β} (hx : x.Extends)
    (hf : ∀ value, (f value).Extends) : (x >>= f).Extends := by
  intro c result rest h more
  obtain ⟨value, mid, hfirst, hsecond⟩ := andThen_eq_some_iff.1 h
  have hfirstMore := hx c value mid hfirst more
  have hsecondMore := hf value mid result rest hsecond more
  exact andThen_eq_some_iff.2 ⟨value, _, hfirstMore, hsecondMore⟩

theorem claim_extends (cost : Nat) : (claim cost).Extends := by
  intro c value rest h more
  rw [claim] at h ⊢
  split at h
  · rename_i hbudget
    obtain ⟨_, rfl⟩ := Prod.mk.inj (Option.some.inj h)
    rw [if_pos hbudget]
  · cases h

theorem takeExact_extends {count : Nat} {xs taken rest : List α}
    (h : takeExact count xs = some (taken, rest)) (more : List α) :
    takeExact count (xs ++ more) = some (taken, rest ++ more) := by
  fun_induction takeExact count xs generalizing taken rest with
  | case1 xs =>
    obtain ⟨rfl, rfl⟩ := Prod.mk.inj (Option.some.inj h)
    rfl
  | case2 => cases h
  | case3 count x xs ih =>
    obtain ⟨⟨taken', rest'⟩, htaken, heq⟩ := Option.map_eq_some_iff.1 h
    obtain ⟨rfl, rfl⟩ := Prod.mk.inj heq
    rw [List.cons_append, takeExact, ih htaken]
    rfl

theorem take_extends (count : Nat) : (take count).Extends := by
  intro c value rest h more
  rw [take] at h ⊢
  split at h
  · cases h
  · rename_i taken left htake
    obtain ⟨rfl, rfl⟩ := Prod.mk.inj (Option.some.inj h)
    simp only [takeExact_extends htake more]

/-- From the front of bytes that begin as they were written, nothing else is made. -/
theorem Makes.value_eq {x : Reader α} {written : List UInt8} {value : α} {cost : Nat}
    (hmakes : x.Makes written value cost) (hx : x.Extends) {bytes more tail : List UInt8}
    {budget : Nat} {found : α} {rest : Cursor} (hbudget : budget < 2 ^ (64 : Nat))
    (hread : x ⟨bytes, budget⟩ = some (found, rest)) (hbytes : bytes ++ more = written ++ tail) :
    found = value := by
  have hmore := hx _ _ _ hread more
  simp only [hbytes] at hmore
  rw [hmakes tail budget hbudget] at hmore
  split at hmore
  · exact (Prod.mk.inj (Option.some.inj hmore)).1.symm
  · cases hmore

end Reader

theorem Field.readNumber_extends (width : Nat) : (readNumber width).Extends := by
  refine (Reader.claim_extends width).bind ?_
  intro _
  refine (Reader.take_extends 1).bind ?_
  intro bytes
  split
  · split
    · exact .pure _
    · split
      · exact .fail
      · split
        · refine (Reader.take_extends _).bind ?_
          intro taken
          exact .pure _
        · exact .fail
  · exact .fail

namespace Payload

open ScoreScript.Field ScoreScript.Reader

/-- The digest behind the number of nodes. -/
def readDigest : Reader (List UInt8) := do
  let _ ← readNumber 8
  .claim 32
  take 32

theorem readDigest_extends : readDigest.Extends := by
  refine (readNumber_extends 8).bind ?_
  intro _
  refine (claim_extends 32).bind ?_
  intro _
  exact take_extends 32

theorem readDigest_makes {p : Payload} (hdigest : p.digest.length = 32) :
    readDigest.Makes (writeNumber p.nodes ++ p.digest) p.digest (numberCost 8 p.nodes + 32) := by
  have htake := take_makes p.digest
  rw [hdigest] at htake
  refine (readNumber_makes (Or.inr rfl) p.nodes).bind ?_ rfl rfl
  exact (claim_makes 32).bind htake (List.nil_append _) rfl

theorem readDigest_of_read {c rest : Cursor} {p : Payload} (h : read c = some (p, rest)) :
    ∃ mid, readDigest c = some (p.digest, mid) := by
  obtain ⟨nodes, afterNodes, hnodes, h⟩ := andThen_eq_some_iff.1 h
  obtain ⟨_, afterClaim, hclaim, h⟩ := andThen_eq_some_iff.1 h
  obtain ⟨digest, afterDigest, htake, h⟩ := andThen_eq_some_iff.1 h
  obtain ⟨count, _, _, h⟩ := andThen_eq_some_iff.1 h
  obtain ⟨listing, _, _, h⟩ := andThen_eq_some_iff.1 h
  obtain ⟨rfl, _⟩ := Prod.mk.inj (Option.some.inj h)
  refine ⟨afterDigest, andThen_eq_some_iff.2 ⟨nodes, afterNodes, hnodes, ?_⟩⟩
  exact andThen_eq_some_iff.2 ⟨_, afterClaim, hclaim, htake⟩

/-- A payload that is read from the front of the bytes of another one has its digest. -/
theorem digest_eq_of_run {p found : Payload} (hdigest : p.digest.length = 32)
    {bytes more : List UInt8} (hbytes : bytes ++ more = p.write)
    (h : read.run budget bytes = some found) : found.digest = p.digest := by
  obtain ⟨⟨found', rest⟩, hread, rfl⟩ := Option.map_eq_some_iff.1 h
  obtain ⟨mid, hmid⟩ := readDigest_of_read hread
  rw [write, List.append_assoc] at hbytes
  exact (readDigest_makes hdigest).value_eq readDigest_extends (by decide) hmid hbytes

end Payload

/-! ### Stored scripts -/

namespace Generator

/-- A script whose bytes load was stored under the digest of the catalog that loads it. -/
theorem digest_eq_of_load_toBytes {S A : Type} {g : Generator S A} {script loaded : Script S A}
    (h : g.load script.toBytes = .ok loaded) :
    catalogDigest script.catalog.predicates = catalogDigest g.catalog.predicates := by
  obtain ⟨t, hread, _⟩ := load_eq_ok_iff.1 h
  obtain ⟨payload, p, hunpack, hrun, htree⟩ := readTree_eq_ok_iff.1 hread
  have hpayload := (Envelope.unpack_eq_ok_iff.1 hunpack).payload_eq
  have hdigest := (Payload.toTree_eq_ok_iff.1 htree).1
  -- a length that is cut off in the header leaves a front of what was stored
  have hfront : ∃ more,
      payload ++ more = (Payload.ofTree script.catalog.predicates script.tree).write := by
    rw [Script.toBytes, Envelope.slice, Envelope.drop_pack] at hpayload
    exact List.prefix_iff_eq_take.2 hpayload.symm
  obtain ⟨more, hbytes⟩ := hfront
  rw [← hdigest, Payload.digest_eq_of_run (Blake3.hash_length _) hbytes hrun]
  rfl

/-- **Fingerprints.**  Among catalogs without names that begin with a line, a digest belongs to one
catalog, and no bytes stored under one of them load under another one.  The condition on names
cannot be dropped: a predicate with such a name can be exchanged for two other ones. -/
theorem catalogDigest_eq_iff {ps qs : List Predicate} (hps : ∀ p ∈ ps, ¬ p.StartsWithLine)
    (hqs : ∀ q ∈ qs, ¬ q.StartsWithLine)
    (hhash : Blake3.hash (catalogLines ps) = Blake3.hash (catalogLines qs) →
      catalogLines ps = catalogLines qs) :
    (catalogDigest ps = catalogDigest qs ↔ ps = qs) ∧
      (∀ {S A : Type} (g : Generator S A) (script loaded : Script S A),
        script.catalog.predicates = ps → g.catalog.predicates = qs →
          g.load script.toBytes = .ok loaded → ps = qs) ∧
      ∀ p : Predicate, p.StartsWithLine → ∃ q r : Predicate, ∀ before after : List Predicate,
        catalogDigest (before ++ p :: after) = catalogDigest (before ++ q :: r :: after) := by
  have hinjective : catalogDigest ps = catalogDigest qs → ps = qs := by
    intro hdigest
    exact catalogText_injective hps hqs (catalogLines_eq_iff.1 (hhash hdigest))
  refine ⟨⟨hinjective, fun hsame => hsame ▸ rfl⟩, ?_, ?_⟩
  · intro S A g script loaded hscript hg hload
    have hdigest := digest_eq_of_load_toBytes hload
    rw [hscript, hg] at hdigest
    exact hinjective hdigest
  · intro p hp
    obtain ⟨q, r, hsplit⟩ := hp.exists_split
    refine ⟨q, r, ?_⟩
    intro before after
    rw [catalogDigest, catalogDigest, catalogLines_eq_iff.2 (hsplit before after)]

/-- The script of the small words does not load over a catalog of one other predicate. -/
theorem catalogDigest_eq_iff_small :
    (∀ p ∈ Catalog.small.predicates, ¬ p.StartsWithLine) ∧
      (∀ q ∈ [(⟨"ohko", [.action], .bool⟩ : Predicate)], ¬ q.StartsWithLine) ∧
      catalogDigest Catalog.small.predicates ≠ catalogDigest [⟨"ohko", [.action], .bool⟩] ∧
      ∃ g script rest, make Catalog.small .default = .ok g ∧
        g.generate (.start WordSource.small 0 100) = .done script rest ∧
        ∀ (g' : Generator Unit Unit) (loaded : Script Unit Unit),
          g'.catalog.predicates = [⟨"ohko", [.action], .bool⟩] →
            g'.load script.toBytes ≠ .ok loaded := by
  have hsmall : ∀ p ∈ Catalog.small.predicates, ¬ p.StartsWithLine := by
    intro p hp
    have hname : ∀ p ∈ Catalog.small.predicates, '\n' ∉ p.name.toList := by decide
    exact Predicate.not_startsWithLine_of_not_mem (hname p hp)
  have hother : ∀ q ∈ [(⟨"ohko", [.action], .bool⟩ : Predicate)], ¬ q.StartsWithLine := by
    intro q hq
    have hname : ∀ q ∈ [(⟨"ohko", [.action], .bool⟩ : Predicate)], '\n' ∉ q.name.toList := by decide
    exact Predicate.not_startsWithLine_of_not_mem (hname q hq)
  have hhash : (Blake3.hash (catalogLines Catalog.small.predicates)).head? ≠
      (Blake3.hash (catalogLines [⟨"ohko", [.action], .bool⟩])).head? := by decide +kernel
  have happart := catalogDigest_eq_iff hsmall hother
    fun hsame => absurd (congrArg List.head? hsame) hhash
  have hne : Catalog.small.predicates ≠ [⟨"ohko", [.action], .bool⟩] := by decide
  obtain ⟨g, script, rest, hg, hrun, _⟩ := generate_small
  have hscript : script.catalog.predicates = Catalog.small.predicates := by
    rw [(Accepts.generated hrun).catalog_eq, (make_eq_ok hg).catalog_eq]
  refine ⟨hsmall, hother, fun hsame => hne (happart.1.1 hsame), g, script, rest, hg, hrun, ?_⟩
  intro g' loaded hg' hload
  exact hne (happart.2.1 g' script loaded hscript hg' hload)

end Generator

/-! ### A name that begins with a line -/

/-- A catalog in which the second name looks like the end of a line and the front of another one. -/
def Catalog.powers : Catalog Unit Unit :=
  ⟨[(⟨"power", [.action], .movePower⟩, fun _ _ _ => .int 80),
    (⟨"weak(action) -> bool\npower", [.action], .statValue⟩, fun _ _ _ => .int 5)]⟩

/-- Another catalog with the same text. -/
def Catalog.shifted : Catalog Unit Unit :=
  ⟨[(⟨"power(action) -> MovePower\nweak", [.action], .bool⟩, fun _ _ _ => .bool true),
    (⟨"power", [.action], .statValue⟩, fun _ _ _ => .int 5)]⟩

/-- The registrations that lead to the entries of a catalog. -/
def Catalog.registry {S A : Type} (c : Catalog S A) : Registry S A :=
  ⟨c.entries.map fun entry =>
    ⟨entry.1.name, entry.1.params, some (.kind entry.1.returns), .core, some entry.2⟩, []⟩

/-- A script that calls the predicate whose name both catalogs have. -/
def Tree.powered : Tree :=
  node 0 (.rule .start) [node 1 (.rule .block)
    [node 2 (.rule (.predicate 0))
      [node 3 (.terminal (.name "power")) [], node 4 (.terminal .action) [],
        node 5 (.rule .numericComparator) [node 6 (.terminal (.op .greaterOrEqual)) []],
        node 7 (.rule (.literal .movePower)) [node 8 (.terminal (.value (.int 80))) []]],
      node 9 (.rule .adjustment) [node 10 (.terminal (.value (.int 3))) []]]]

theorem Tree.wellLabelled_powered : powered.WellLabelled 2 := by
  have hrule : ∀ r : Rule, r.rank < 14 → ∀ index, r = .predicate index → index < 2 := by
    intro r hr index hindex
    rw [hindex] at hr
    exact absurd hr (Nat.lt_irrefl 14)
  have hcall : ∀ index, Rule.predicate 0 = .predicate index → index < 2 := by
    intro index hindex
    cases hindex
    decide
  have hone : ∀ {t : Tree}, t.WellLabelled 2 → ∀ child ∈ [t], child.WellLabelled 2 :=
    List.forall_mem_singleton.2
  have hop := WellLabelled.rule 5 (hrule .numericComparator (by decide))
    (hone (.leaf 6 (.op .greaterOrEqual)))
  have hvalue := WellLabelled.rule 7 (hrule (.literal .movePower) (by decide))
    (hone (.leaf 8 (.value (.int 80))))
  have hamount := WellLabelled.rule 9 (hrule .adjustment (by decide))
    (hone (.leaf 10 (.value (.int 3))))
  refine .rule 0 (hrule .start (by decide)) (hone (.rule 1 (hrule .block (by decide)) ?_))
  refine List.forall_mem_cons.2 ⟨.rule 2 hcall ?_, hone hamount⟩
  refine List.forall_mem_cons.2 ⟨.leaf 3 _, List.forall_mem_cons.2 ⟨.leaf 4 _, ?_⟩⟩
  exact List.forall_mem_cons.2 ⟨hop, hone hvalue⟩

namespace Generator

/-- Two catalogs that can be registered have different predicates and the same text, and the script
that was compiled under one of them loads under the other one. -/
theorem load_toBytes_shifted :
    Catalog.powers.registry.build .all = .ok Catalog.powers ∧
      Catalog.shifted.registry.build .all = .ok Catalog.shifted ∧
      Catalog.powers.predicates ≠ Catalog.shifted.predicates ∧
      catalogDigest Catalog.powers.predicates = catalogDigest Catalog.shifted.predicates ∧
      ∃ g g' script loaded, make Catalog.powers .default = .ok g ∧
        make Catalog.shifted .default = .ok g' ∧ g.compileTree .powered = .ok script ∧
        g'.load script.toBytes = .ok loaded := by
  have hdigest : catalogDigest Catalog.powers.predicates =
      catalogDigest Catalog.shifted.predicates := by
    have htext : catalogText Catalog.powers.predicates =
        catalogText Catalog.shifted.predicates := by decide
    rw [catalogDigest, catalogDigest, catalogLines_eq_iff.2 htext]
  obtain ⟨g, script, hg, hscript, _⟩ :=
    exists_script Catalog.powers .powered (fun _ => true) (by decide +kernel)
  obtain ⟨g', loaded, hg', hloaded, _⟩ :=
    exists_script Catalog.shifted .powered (fun _ => true) (by decide +kernel)
  have hcatalog : g'.catalog = Catalog.shifted := (make_eq_ok hg').catalog_eq
  have htree := tree_eq_of_compileTree hloaded
  have hsame : script.toBytes = loaded.toBytes := by
    rw [Script.toBytes, Script.toBytes, Payload.ofTree, Payload.ofTree,
      tree_eq_of_compileTree hscript, htree, (Accepts.compiled hscript).catalog_eq,
      (Accepts.compiled hloaded).catalog_eq, (make_eq_ok hg).catalog_eq, hcatalog, hdigest]
  refine ⟨rfl, rfl, by decide, hdigest, g, g', script, loaded, hg, hg', hscript, ?_⟩
  rw [hsame]
  refine Accepts.load_eq (.compiled hloaded) ?_ ?_ ?_
  · rw [htree, hcatalog]
    exact Tree.wellLabelled_powered
  · rw [htree]
    rfl
  · rw [htree, hcatalog]
    decide +kernel

end Generator

end ScoreScript
