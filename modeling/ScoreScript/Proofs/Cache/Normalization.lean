import ScoreScript.Proofs.Cache.Acceptance
import ScoreScript.Proofs.Cache.Spending

/-!
# Loading and storing again

There are many ways to write down a tree that loads: numbers may be longer than they have to be, a
multiplier may be a negative zero, and there may be anything behind the last field.  Whatever the
bytes were, storing the loaded script gives bytes that load as the same script.

For this the listing has to say what is in the tree, entry by entry, so that writing the tree down
again costs no more than reading it did.

* `StoredLabel.cost_ofSymbol` — a label costs as much as the stored form that it was found for;
* `Listing.rows_of_build` — a listing and the tree that it leads to have the same rows;
* `Payload.cost_ofTree_le` — storing a tree again costs no more;
* `Generator.load_toBytes_of_load` — loaded scripts come back as they are.
-/

namespace ScoreScript

/-! ### Labels -/

/-- What is found under a name has that name. -/
theorem name_of_find? {α : Type} {all : List α} {name : α → String} {text : String} {a : α}
    (h : all.find? (name · == text) = some a) : name a = text := by
  have hname := List.find?_some h
  exact beq_iff_eq.1 hname

theorem StoredLiteral.cost_ofLiteral {stored : StoredLiteral} {v : Literal}
    (h : stored.resolve = .ok v) : (ofLiteral v).cost = stored.cost := by
  cases stored with
  | bool value =>
    obtain rfl := Except.ok.inj h
    rfl
  | int value =>
    obtain rfl := Except.ok.inj h
    rfl
  | multiplier raw =>
    -- both zeros stand for one multiplier, and every pattern costs the same
    obtain ⟨value, _, rfl⟩ := orFault_map_eq_ok_iff.1 h
    rfl
  | element name =>
    obtain ⟨value, hvalue, rfl⟩ := orFault_map_eq_ok_iff.1 h
    rw [ofLiteral, name_of_find? hvalue]
  | weather name =>
    cases name with
    | none =>
      obtain rfl := Except.ok.inj h
      rfl
    | some name =>
      obtain ⟨value, hvalue, rfl⟩ := orFault_map_eq_ok_iff.1 h
      rw [ofLiteral, Option.map_some, name_of_find? hvalue]
  | status name =>
    cases name with
    | none =>
      obtain rfl := Except.ok.inj h
      rfl
    | some name =>
      obtain ⟨value, hvalue, rfl⟩ := orFault_map_eq_ok_iff.1 h
      rw [ofLiteral, Option.map_some, name_of_find? hvalue]
  | stat name =>
    obtain ⟨value, hvalue, rfl⟩ := orFault_map_eq_ok_iff.1 h
    rw [ofLiteral, name_of_find? hvalue]

theorem StoredRule.cost_ofRule {count : Nat} {stored : StoredRule} {r : Rule}
    (h : stored.resolve count = .ok r) : (ofRule r).cost = stored.cost := by
  cases stored with
  | plain position =>
    obtain rfl := Except.ok.inj h
    have hplain : ∀ position : Fin 13, (ofRule (Rule.plain.get position)).cost = 4 := by decide
    exact hplain position
  | literal name =>
    obtain ⟨kind, hkind, rfl⟩ := orFault_map_eq_ok_iff.1 h
    rw [ofRule, name_of_find? hkind]
  | predicate index =>
    rw [resolve] at h
    split at h
    · obtain rfl := Except.ok.inj h
      rfl
    · cases h

/-- A label costs as much as any stored form that it is found for. -/
theorem StoredLabel.cost_ofSymbol {count : Nat} {stored : StoredLabel} {s : Symbol}
    (h : stored.resolve count = .ok s) : (ofSymbol s).cost = stored.cost := by
  cases stored with
  | rule r =>
    obtain ⟨r', hr, rfl⟩ := Result.map_eq_ok_iff.1 h
    rw [ofSymbol, cost, StoredRule.cost_ofRule hr, cost]
  | value literal =>
    obtain ⟨v, hv, rfl⟩ := Result.map_eq_ok_iff.1 h
    rw [ofSymbol, cost, StoredLiteral.cost_ofLiteral hv, cost]
  | _ =>
    obtain rfl := Except.ok.inj h
    rfl

/-! ### Rows -/

/-- The number of a node, its label as far as there is one, and its number of children. -/
abbrev Row := NodeId × Except LabelFault Symbol × Nat

/-- The row of the root. -/
def Tree.row (t : Tree) : Row :=
  (t.id, .ok t.label, t.children.length)

namespace Listing

variable {count : Nat} {limits : Limits}

/-- The rows of a listing whose first entry has the given position. -/
def rows (count index : Nat) : Listing → List Row
  | [] => []
  | entry :: rest =>
    (UInt32.ofNat index, entry.label.resolve count, entry.arity) :: rows count (index + 1) rest

theorem rows_length (count index : Nat) (listing : Listing) :
    (listing.rows count index).length = listing.length := by
  induction listing generalizing index with
  | nil => rfl
  | cons entry rest ih => rw [rows, List.length_cons, List.length_cons, ih]

theorem ids_rows (index : Nat) (listing : Listing) :
    (listing.rows count index).map (·.1) = Tree.idsFrom index listing.length := by
  induction listing generalizing index with
  | nil => rfl
  | cons entry rest ih =>
    rw [rows, List.map_cons, ih, List.length_cons, Nat.add_comm rest.length, Tree.idsFrom_add]
    rfl

/-- The rows that have been gone through, some of them for nodes that still wait for children. -/
def openRows : List Frame → List Row
  | [] => []
  | f :: rest =>
    openRows rest ++ (f.id, .ok f.label, f.found.length + (f.waiting + 1)) ::
      (Tree.preorderAll f.found.reverse).map Tree.row

/-- The rows that have been gone through, with a finished tree or without one. -/
def rowsSoFar (opened : List Frame) : Option Tree → List Row
  | none => openRows opened
  | some t => t.preorder.map Tree.row

/-- Placing a tree adds the rows of the tree. -/
theorem rowsSoFar_place (t : Tree) (opened : List Frame) :
    rowsSoFar (Frame.place t opened).1 (Frame.place t opened).2 =
      openRows opened ++ t.preorder.map Tree.row := by
  fun_induction Frame.place t opened with
  | case1 t => rfl
  | case2 t f rest hwaiting ih =>
    -- the last child closes the node, which takes its own place in turn
    have hclose : (f.close t).preorder.map Tree.row =
        (f.id, .ok f.label, f.found.length + (f.waiting + 1)) ::
          (Tree.preorderAll f.found.reverse).map Tree.row ++ t.preorder.map Tree.row := by
      rw [Frame.close, Tree.preorder_node, List.reverse_cons, Tree.preorderAll_append,
        List.map_cons, List.map_append, Tree.row, Tree.children, List.length_append,
        List.length_reverse, hwaiting]
      rfl
    rw [ih, hclose, openRows, List.append_assoc]
  | case3 t f rest waiting hwaiting =>
    show openRows _ = _
    rw [openRows, openRows, List.reverse_cons, Tree.preorderAll_append, List.map_append,
      List.append_assoc, List.cons_append, hwaiting, List.length_cons, Nat.add_right_comm]
    rfl

/-- **Rows.**  A listing that is gone through and the tree that it leads to have the same rows. -/
theorem rows_of_build {index : Nat} {opened : List Frame} {root : Option Tree} {listing : Listing}
    {t : Tree} (h : build count limits index opened root listing = .ok t) :
    t.preorder.map Tree.row = rowsSoFar opened root ++ listing.rows count index := by
  -- on the listing: every entry moves one row from those to come to those gone through
  induction listing generalizing index opened root with
  | nil =>
    cases root with
    | none => cases h
    | some t' =>
      obtain rfl : t' = t := Except.ok.inj h
      rw [rows, List.append_nil, rowsSoFar]
  | cons entry rest ih =>
    obtain ⟨rfl, _, label, hlabel, hleaf | hopen⟩ := build_cons_eq_ok h
    · obtain ⟨harity, hrest⟩ := hleaf
      rw [ih hrest, rowsSoFar_place, rows, hlabel, harity, List.append_assoc, Tree.preorder_node,
        Tree.preorderAll]
      rfl
    · obtain ⟨waiting, harity, _, hrest⟩ := hopen
      rw [ih hrest, rows, hlabel, harity]
      show openRows _ ++ _ = openRows _ ++ _
      rw [openRows, List.append_assoc, List.length_nil, Nat.zero_add, List.reverse_nil,
        Tree.preorderAll]
      rfl

/-- The tree that a whole listing leads to has its rows. -/
theorem rows_of_toTree {listing : Listing} {t : Tree} (h : listing.toTree count limits = .ok t) :
    t.preorder.map Tree.row = listing.rows count 0 :=
  rows_of_build (build_of_toTree h)

theorem length_of_toTree {listing : Listing} {t : Tree} (h : listing.toTree count limits = .ok t) :
    listing.length = t.nodes := by
  rw [← rows_length count 0, ← rows_of_toTree h, List.length_map, Tree.preorder_length]

/-- The nodes of a tree that is read from a listing are numbered in preorder. -/
theorem numbered_of_toTree {listing : Listing} {t : Tree}
    (h : listing.toTree count limits = .ok t) : t.numbered 0 = t := by
  have hids := congrArg (List.map Prod.fst) (rows_of_toTree h)
  rw [ids_rows, List.map_map, length_of_toTree h] at hids
  exact Tree.numbered_of_ids hids

/-- Entries made anew from the rows of a listing cost no more than those of the listing. -/
theorem cost_of_rows {index : Nat} {listing : Listing} {ts : List Tree}
    (h : ts.map Tree.row = listing.rows count index) :
    ((ts.map ListingEntry.ofTree).map Payload.entryCost).sum ≤
      (listing.map Payload.entryCost).sum := by
  induction listing generalizing index ts with
  | nil =>
    obtain rfl := List.map_eq_nil_iff.1 h
    exact Nat.le_refl 0
  | cons entry rest ih =>
    cases ts with
    | nil => cases h
    | cons t ts =>
      obtain ⟨hrow, hrest⟩ := List.cons.inj h
      obtain ⟨_, hpair⟩ := Prod.mk.inj hrow
      obtain ⟨hlabel, harity⟩ := Prod.mk.inj hpair
      have hfirst : Payload.entryCost (.ofTree t) ≤ Payload.entryCost entry := by
        rw [ListingEntry.ofTree, Payload.entryCost, Payload.entryCost,
          StoredLabel.cost_ofSymbol hlabel.symm, harity]
        exact Nat.add_le_add_left (Field.numberCost_mod_le _) _
      simp only [List.map_cons, List.sum_cons]
      exact Nat.add_le_add hfirst (ih hrest)

end Listing

/-! ### Payloads -/

/-- Storing a tree again costs no more than the payload from which it was read. -/
theorem Payload.cost_ofTree_le {ps : List Predicate} {limits : Limits} {p : Payload} {t : Tree}
    (h : p.toTree ps limits = .ok t) : (ofTree ps t).cost ≤ p.cost := by
  obtain ⟨_, hnodes, hlisting⟩ := toTree_eq_ok_iff.1 h
  have hlength := Listing.length_of_toTree hlisting
  have hsum : ((Listing.ofTree t).map entryCost).sum ≤ (p.listing.map entryCost).sum :=
    Listing.cost_of_rows (Listing.rows_of_toTree hlisting)
  rw [cost, cost, ofTree, Tree.size_eq_nodes, Listing.ofTree_length, ← hnodes, hlength]
  exact Nat.add_le_add_left (Nat.add_le_add_left (Nat.add_le_add_left hsum _) _) _

/-! ### Payloads written otherwise -/

namespace Payload

open ScoreScript.Field

/-- Other bytes for the same payload: its number of nodes stands behind a marker, needed or not, and
one byte follows the last entry. -/
def writeOtherwise (p : Payload) : List UInt8 :=
  (251 :: LittleEndian.encode 2 p.nodes) ++
    (p.digest ++ (writeNumber p.listing.length ++ p.listing.flatMap writeEntry)) ++ [0]

variable {p : Payload}

theorem run_read_writeOtherwise (hnodes : p.nodes < 2 ^ (16 : Nat)) (hdigest : p.digest.length = 32)
    (hcost : p.cost ≤ budget) : read.run budget p.writeOtherwise = some p := by
  have hmarker : (readNumber 8).Makes (251 :: LittleEndian.encode 2 p.nodes) p.nodes 8 :=
    readNumber_makes_of_marker (by decide) rfl (by decide) hnodes
  have hread := read_makes_of hmarker hdigest [0] budget (by decide)
  have hsmall : numberCost 8 p.nodes = 8 := numberCost_of_lt (by omega)
  rw [cost, hsmall] at hcost
  rw [if_pos hcost] at hread
  rw [Reader.run, writeOtherwise, hread]
  rfl

theorem length_writeOtherwise (hnodes : p.nodes < 2 ^ (16 : Nat)) :
    p.write.length < p.writeOtherwise.length ∧ p.writeOtherwise.length ≤ p.write.length + 4 := by
  have hmarked : (251 :: LittleEndian.encode 2 p.nodes).length = 3 := rfl
  have hshort : (writeNumber p.nodes).length ≤ 3 := by
    rw [writeNumber]
    split
    · exact Nat.le_of_ble_eq_true rfl
    · exact Nat.le_of_ble_eq_true rfl
  simp only [write_eq, writeOtherwise, List.length_append, hmarked, List.length_singleton]
  omega

end Payload

namespace Generator

variable {S A : Type}

/-- **Loading normalizes.**  Whatever bytes a script was loaded from, its own bytes load as the same
script: the same tree with the same numbers, the same text and the same blocks.  So storing it once
more changes nothing. -/
theorem load_toBytes_of_load {g : Generator S A} {bytes : List UInt8} {script : Script S A}
    (h : g.load bytes = .ok script) : g.load script.toBytes = .ok script := by
  obtain ⟨t, hread, hcompile⟩ := load_eq_ok_iff.1 h
  obtain ⟨payload, p, _, hrun, htree⟩ := readTree_eq_ok_iff.1 hread
  have hscript := tree_eq_of_compileTree hcompile
  have hnumbered : script.tree.numbered 0 = script.tree := by
    rw [hscript]
    exact Listing.numbered_of_toTree (Payload.toTree_eq_ok_iff.1 htree).2.2
  have hcost : (Payload.ofTree g.catalog.predicates script.tree).cost ≤ Payload.budget := by
    rw [hscript]
    exact Nat.le_trans (Payload.cost_ofTree_le htree) (Payload.cost_le_of_run hrun)
  exact Accepts.load_eq (.loaded h) (wellLabelled_of_load h) hnumbered hcost

/-- The payload of a script that is written otherwise loads as well. -/
theorem load_writeOtherwise {g : Generator S A} {script : Script S A} {ps : List Predicate}
    (hscript : script.catalog.predicates = ps) (hg : g.catalog.predicates = ps)
    (hnodes : script.tree.size < 2 ^ (16 : Nat))
    (hcost : (Payload.ofTree ps script.tree).cost ≤ Payload.budget) :
    g.load (Envelope.pack (Payload.ofTree ps script.tree).writeOtherwise) =
      g.load script.toBytes := by
  have hdigest : (Payload.ofTree ps script.tree).digest.length = 32 := Blake3.hash_length _
  have hbudget : (Payload.ofTree ps script.tree).cost ≤ 2 ^ (24 : Nat) := hcost
  have hshort := Payload.short_write hdigest (by omega)
  have hlength := Payload.length_writeOtherwise (p := .ofTree ps script.tree) hnodes
  have hfits : (Payload.ofTree ps script.tree).writeOtherwise.length < 2 ^ (32 : Nat) := by omega
  have hunpack := Envelope.unpack_pack hfits
  have hread : g.readTree (Envelope.pack (Payload.ofTree ps script.tree).writeOtherwise) =
      g.readTree script.toBytes := by
    rw [readTree_toBytes_eq hscript hg hcost, readTree, hunpack]
    simp only [Payload.run_read_writeOtherwise hnodes hdigest hcost, hg]
  rw [load, load, hread]

/-- The script of the small words loads from bytes that are not its own. -/
theorem load_toBytes_of_load_small :
    ∃ g bytes script, make Catalog.small .default = .ok g ∧ g.load bytes = .ok script ∧
      bytes ≠ script.toBytes ∧ g.load script.toBytes = .ok script := by
  obtain ⟨g, script, rest, hg, hrun, hcheap, hload⟩ := reload_small
  have hcatalog : g.catalog = Catalog.small := (make_eq_ok hg).catalog_eq
  have haccepts : g.Accepts script := .generated hrun
  have hscript : script.catalog.predicates = Catalog.small.predicates := by
    rw [haccepts.catalog_eq, hcatalog]
  have hnodes : script.tree.size < 2 ^ (16 : Nat) := by
    have hlimit := (Tree.checkLimits_eq_ok_iff.1 haccepts.checkLimits_eq).2
    rw [(make_eq_ok hg).config_eq] at hlimit
    rw [Tree.size_eq_nodes]
    exact Nat.lt_of_le_of_lt hlimit (by decide)
  have hother := load_writeOtherwise hscript (by rw [hcatalog]) hnodes hcheap
  rw [hload] at hother
  refine ⟨g, _, script, hg, hother, ?_, load_toBytes_of_load hother⟩
  intro hsame
  have hlength := congrArg List.length hsame
  rw [Script.toBytes, hscript, Envelope.length_pack, Envelope.length_pack] at hlength
  have hlonger := Payload.length_writeOtherwise (p := .ofTree Catalog.small.predicates script.tree)
    hnodes
  omega

end Generator

end ScoreScript
