import Mathlib.Data.List.Infix
import ScoreScript.Proofs.Script.Texts
import ScoreScript.Proofs.Tree.Labels
import ScoreScript.Proofs.Tree.Positions
import ScoreScript.Tree.Printout

/-!
# Printouts are faithful

Every line of a printout shows one node: the columns of its ancestors, its connector, its label and
its mark.  Columns and connectors are of one width, so a line tells where it stands, and the lines
tell the tree.

* `Tree.indent` — the columns and the connector of a node, read off its position;
* `Tree.lines_eq_zipWith` — the lines of a printout, one for each position;
* `Tree.looksLike` — trees that agree in shape, in the texts of labels and in marks;
* `Tree.lines_inj` — the lines of a tree with anything behind them that lies outside of it;
* `Tree.printout_faithful` — the lines of a printout, and what they tell.
-/

namespace ScoreScript

namespace Tree

/-! ### Columns and connectors -/

/-- Whether a position is that of the last child of its parent. -/
def isLastAt (t : Tree) (p : List Nat) : Bool :=
  match t.at? p.dropLast with
  | none => false
  | some parent => p.getLast? == some (parent.children.length - 1)

/-- What stands before the label of a node: a column for each of its ancestors below the root, and its
own connector.  The root has neither. -/
def indent (g : Glyphs) (t : Tree) (p : List Nat) : String :=
  String.join (p.inits.tail.dropLast.map fun ancestor => column g (t.isLastAt ancestor)) ++
    if p = [] then "" else connector g (t.isLastAt p)

theorem isLastAt_child {t child : Tree} {before after : List Tree}
    (h : t.children = before ++ child :: after) :
    t.isLastAt [before.length] = after.isEmpty := by
  have hparent : t.isLastAt [before.length] =
      (some before.length == some (t.children.length - 1)) := rfl
  rw [hparent, h]
  cases after with
  | nil => simp
  | cons next after => simp

theorem isLastAt_below {t child : Tree} {place : Nat} (h : t.children[place]? = some child)
    (step : Nat) (path : List Nat) :
    t.isLastAt (place :: step :: path) = child.isLastAt (step :: path) := by
  rw [isLastAt, isLastAt, List.dropLast_cons_cons, List.getLast?_cons_cons, at?, h]

theorem indent_root (g : Glyphs) (t : Tree) : indent g t [] = "" := rfl

theorem indent_child (g : Glyphs) (t : Tree) (place : Nat) :
    indent g t [place] = connector g (t.isLastAt [place]) := by
  rw [indent, if_neg (List.cons_ne_nil _ _)]
  exact String.empty_append

theorem indent_below (g : Glyphs) {t child : Tree} {place : Nat}
    (h : t.children[place]? = some child) (step : Nat) (path : List Nat) :
    indent g t (place :: step :: path) =
      column g (t.isLastAt [place]) ++ indent g child (step :: path) := by
  have hinits : (place :: step :: path).inits.tail.dropLast =
      [place] :: (step :: path).inits.tail.dropLast.map (place :: ·) := by
    have hne : path.inits ≠ [] := List.ne_nil_of_mem ((List.mem_inits [] path).2 List.nil_prefix)
    rw [List.inits_cons, List.inits_cons, List.tail_cons, List.map_cons, List.tail_cons,
      List.map_dropLast]
    exact List.dropLast_cons_of_ne_nil (by simpa using hne)
  have hcolumns : ∀ ancestor ∈ (step :: path).inits.tail.dropLast,
      ((fun ancestor => column g (t.isLastAt ancestor)) ∘ (place :: ·)) ancestor =
        column g (child.isLastAt ancestor) := by
    intro ancestor hancestor
    have hmem := List.mem_of_mem_dropLast hancestor
    rw [List.inits_cons, List.tail_cons] at hmem
    obtain ⟨path', _, rfl⟩ := List.mem_map.1 hmem
    rw [Function.comp_apply, isLastAt_below h]
  rw [indent, indent, hinits, List.map_cons, List.map_map, List.map_congr_left hcolumns,
    String.join_cons, String.append_assoc, if_neg (List.cons_ne_nil _ _),
    if_neg (List.cons_ne_nil _ _), isLastAt_below h]

/-! ### Lines -/

variable {g : Glyphs} {marked marked' : List NodeId}

/-- The line of a node, behind what stands before its label. -/
def lineOf (marked : List NodeId) (before : String) (t : Tree) : String :=
  before ++ t.label.text ++ mark marked t.id

/-- What stands before a label in the lines of a tree that begin with a lead, and below the root with a
margin. -/
def before (g : Glyphs) (lead margin : String) (t : Tree) (p : List Nat) : String :=
  if p = [] then lead else margin ++ indent g t p

/-- What stands before labels in the lines of a child is what stands there in the lines of its parent. -/
theorem before_child {t child : Tree} {elder younger : List Tree}
    (h : t.children = elder ++ child :: younger) (g : Glyphs) (lead margin : String) :
    before g (margin ++ connector g younger.isEmpty) (margin ++ column g younger.isEmpty) child =
      before g lead margin t ∘ (elder.length :: ·) := by
  have hchild : t.children[elder.length]? = some child := by
    rw [h, List.getElem?_append_right (Nat.le_refl _), Nat.sub_self]
    rfl
  funext p
  rw [Function.comp_apply, before, before, if_neg (List.cons_ne_nil _ _)]
  cases p with
  | nil => rw [if_pos rfl, indent_child, isLastAt_child h]
  | cons step path =>
    rw [if_neg (List.cons_ne_nil _ _), indent_below g hchild, isLastAt_child h, String.append_assoc]

theorem childLines_eq_zipWith {t : Tree} {ts : List Tree} (elder : List Tree)
    (h : t.children = elder ++ ts) (lead margin : String)
    (hchildren : ∀ child ∈ ts, ∀ lead margin, lines g marked lead margin child =
      List.zipWith (lineOf marked ∘ before g lead margin child) child.positions child.preorder) :
    childLines g marked margin ts =
      List.zipWith (lineOf marked ∘ before g lead margin t)
        (positionsFrom elder.length ts) (preorderAll ts) := by
  induction ts generalizing elder with
  | nil => rw [childLines, positionsFrom, List.zipWith_nil_left]
  | cons child rest ih =>
    have hrest := ih (elder ++ [child]) (by rw [h, List.append_assoc]; rfl)
      fun u hu => hchildren u (List.mem_cons_of_mem _ hu)
    rw [List.length_append, List.length_singleton] at hrest
    have hfirst := hchildren child List.mem_cons_self
    rw [childLines, hfirst, before_child h g lead, hrest, positionsFrom, preorderAll_cons,
      List.zipWith_append (by rw [List.length_map, length_positions]), List.zipWith_map_left]
    rfl

/-- The lines of a tree, one for each of its positions. -/
theorem lines_eq_zipWith (g : Glyphs) (marked : List NodeId) (lead margin : String) (t : Tree) :
    lines g marked lead margin t =
      List.zipWith (lineOf marked ∘ before g lead margin t) t.positions t.preorder := by
  induction t using children_induction generalizing lead margin with
  | node id label children ih =>
    have hbelow : childLines g marked margin children =
        List.zipWith (lineOf marked ∘ before g lead margin (node id label children))
          (positionsFrom 0 children) (preorderAll children) :=
      childLines_eq_zipWith (t := node id label children) [] rfl lead margin ih
    rw [lines, hbelow, positions, preorder_node, List.zipWith_cons_cons]
    rfl

/-- The line of the node at a position of a printout. -/
theorem getElem?_lines (g : Glyphs) (marked : List NodeId) {t u : Tree} {p : List Nat} {k : Nat}
    (hp : t.positions[k]? = some p) (hu : t.preorder[k]? = some u) :
    (lines g marked "" "" t)[k]? = some (indent g t p ++ u.label.text ++ mark marked u.id) := by
  have hbefore : before g "" "" t p = indent g t p := by
    rw [before]
    split
    · rename_i hroot
      rw [hroot, indent_root]
    · exact String.empty_append
  rw [lines_eq_zipWith, List.getElem?_zipWith, hp, hu]
  show some (lineOf marked (before g "" "" t p) u) = _
  rw [hbefore, lineOf]

/-- The subtrees at the positions are met in order. -/
theorem exists_getElem?_positions {t u : Tree} {k : Nat} (hu : t.preorder[k]? = some u) :
    ∃ p, t.positions[k]? = some p ∧ t.at? p = some u := by
  have hmap : (t.positions.map t.at?)[k]? = some (some u) := by
    rw [map_at?_positions, List.getElem?_map, hu]
    rfl
  rw [List.getElem?_map, Option.map_eq_some_iff] at hmap
  exact hmap

/-! ### Trees that look alike -/

mutual

/-- The same texts of labels in the same shape, and the same nodes marked. -/
def looksLike (marked marked' : List NodeId) : Tree → Tree → Prop
  | node id label children, node id' label' children' =>
    label.text = label'.text ∧ (id ∈ marked ↔ id' ∈ marked') ∧
      looksLikeAll marked marked' children children'

/-- Looking alike tree by tree. -/
def looksLikeAll (marked marked' : List NodeId) : List Tree → List Tree → Prop
  | [], [] => True
  | t :: ts, u :: us => looksLike marked marked' t u ∧ looksLikeAll marked marked' ts us
  | _, _ => False

end

theorem mark_eq_iff {id id' : NodeId} :
    mark marked id = mark marked' id' ↔ (id ∈ marked ↔ id' ∈ marked') := by
  unfold mark
  by_cases h : id ∈ marked <;> by_cases h' : id' ∈ marked' <;> simp [h, h']

theorem isEmpty_of_looksLikeAll {ts us : List Tree} (h : looksLikeAll marked marked' ts us) :
    ts.isEmpty = us.isEmpty := by
  cases ts <;> cases us <;> first | rfl | exact absurd h (by rw [looksLikeAll] <;> simp)

mutual

/-- Trees that look alike have the same lines. -/
theorem lines_congr {t u : Tree} (h : looksLike marked marked' t u) (lead margin : String) :
    lines g marked lead margin t = lines g marked' lead margin u := by
  obtain ⟨id, label, children⟩ := t
  obtain ⟨id', label', children'⟩ := u
  rw [looksLike] at h
  obtain ⟨hlabel, hmark, hchildren⟩ := h
  rw [lines, lines, hlabel, mark_eq_iff.2 hmark, childLines_congr hchildren]

theorem childLines_congr {ts us : List Tree} (h : looksLikeAll marked marked' ts us)
    (margin : String) : childLines g marked margin ts = childLines g marked' margin us := by
  cases ts with
  | nil =>
    cases us with
    | nil => rfl
    | cons u us => exact absurd h (by rw [looksLikeAll] <;> simp)
  | cons t rest =>
    cases us with
    | nil => exact absurd h (by rw [looksLikeAll] <;> simp)
    | cons u us =>
      rw [looksLikeAll] at h
      obtain ⟨hfirst, hrest⟩ := h
      rw [childLines, childLines, isEmpty_of_looksLikeAll hrest, lines_congr hfirst,
        childLines_congr hrest]

end

/-! ### Reading lines -/

/-- A text is a column or a connector. -/
def IsGlyph (style : PrintStyle) (s : String) : Prop :=
  ∃ isLast, s = connector style.glyphs isLast ∨ s = column style.glyphs isLast

variable {style : PrintStyle}

/-- Columns and connectors are of one width. -/
theorem IsGlyph.length_eq {s : String} (h : IsGlyph style s) : s.toList.length = 4 := by
  obtain ⟨isLast, rfl | rfl⟩ := h <;> cases style <;> cases isLast <;> decide

theorem IsGlyph.not_mem {s : String} (h : IsGlyph style s) : '\n' ∉ s.toList := by
  obtain ⟨isLast, rfl | rfl⟩ := h <;> cases style <;> cases isLast <;> decide

/-- The column or the connector at the front of a text. -/
theorem IsGlyph.append_inj {s t x y : String} (hs : IsGlyph style s) (ht : IsGlyph style t)
    (h : s ++ x = t ++ y) : s = t := by
  have hchars : s.toList ++ x.toList = t.toList ++ y.toList := by
    rw [← String.toList_append, h, String.toList_append]
  have hfront := (List.append_inj hchars (by rw [hs.length_eq, ht.length_eq])).1
  exact String.toList_inj.1 hfront

theorem isGlyph_connector (style : PrintStyle) (isLast : Bool) :
    IsGlyph style (connector style.glyphs isLast) :=
  ⟨isLast, Or.inl rfl⟩

theorem isGlyph_column (style : PrintStyle) (isLast : Bool) :
    IsGlyph style (column style.glyphs isLast) :=
  ⟨isLast, Or.inr rfl⟩

theorem connector_injective {a b : Bool}
    (h : connector style.glyphs a = connector style.glyphs b) : a = b := by
  revert h
  cases style <;> cases a <;> cases b <;> decide

theorem connector_ne_column (style : PrintStyle) (a b : Bool) :
    connector style.glyphs a ≠ column style.glyphs b := by
  cases style <;> cases a <;> cases b <;> decide

/-- The lines go on outside of a margin: no column or connector stands behind the margin in the first
of them. -/
def Leaves (style : PrintStyle) (margin : String) (after : List String) : Prop :=
  ∀ line ∈ after.head?, ∀ glyph, IsGlyph style glyph → ∀ rest, line ≠ margin ++ (glyph ++ rest)

theorem head?_childLines (g : Glyphs) (marked : List NodeId) (margin : String) (t : Tree)
    (rest : List Tree) (after : List String) :
    (childLines g marked margin (t :: rest) ++ after).head? =
      some (margin ++ (connector g rest.isEmpty ++ (t.label.text ++ mark marked t.id))) := by
  obtain ⟨id, label, children⟩ := t
  rw [childLines, lines, List.cons_append, List.cons_append, List.head?_cons, String.append_assoc,
    String.append_assoc]
  rfl

/-- What comes behind the lines of a child is outside of the margin of its children. -/
theorem Leaves.behind_child {margin : String} {after : List String} (h : Leaves style margin after)
    (marked : List NodeId) (isLast : Bool) (rest : List Tree) :
    Leaves style (margin ++ column style.glyphs isLast)
      (childLines style.glyphs marked margin rest ++ after) := by
  intro line hline glyph hglyph x heq
  rw [String.append_assoc] at heq
  cases rest with
  | nil => exact h line hline _ (isGlyph_column style isLast) _ heq
  | cons t rest =>
    rw [head?_childLines, Option.mem_some_iff] at hline
    rw [← hline, String.append_right_inj] at heq
    exact connector_ne_column style _ _
      ((isGlyph_connector style _).append_inj (isGlyph_column style _) heq)

/-- The label and the mark of a node are found again in its line. -/
theorem label_mark_inj {t u : Tree} (ht : ∀ name ∈ t.names, Declaration.isWord name = true)
    (hu : ∀ name ∈ u.names, Declaration.isWord name = true)
    (h : t.label.text ++ mark marked t.id = u.label.text ++ mark marked' u.id) :
    t.label.text = u.label.text ∧ (t.id ∈ marked ↔ u.id ∈ marked') := by
  have hlabel : ∀ v : Tree, (∀ name ∈ v.names, Declaration.isWord name = true) →
      v.label.text.toList.any isLayout = false := fun v hv =>
    Symbol.isLayout_text fun name hname => hv name (mem_names.2 ⟨v, mem_preorder_self v, hname⟩)
  have hmark : ∀ (marked : List NodeId) (id : NodeId),
      (mark marked id).toList.head?.all isLayout = true := by
    intro marked id
    unfold mark
    split <;> decide
  obtain ⟨htext, hmarks⟩ :=
    append_inj_of_stop (hlabel t ht) (hlabel u hu) (hmark marked t.id) (hmark marked' u.id) h
  exact ⟨htext, mark_eq_iff.1 hmarks⟩

mutual

/-- Trees look alike if the same lines show them, whatever comes behind. -/
theorem lines_inj {t u : Tree} (ht : ∀ name ∈ t.names, Declaration.isWord name = true)
    (hu : ∀ name ∈ u.names, Declaration.isWord name = true) {lead margin : String}
    {after after' : List String} (hafter : Leaves style margin after)
    (hafter' : Leaves style margin after')
    (h : lines style.glyphs marked lead margin t ++ after =
      lines style.glyphs marked' lead margin u ++ after') :
    looksLike marked marked' t u ∧ after = after' := by
  obtain ⟨id, label, children⟩ := t
  obtain ⟨id', label', children'⟩ := u
  rw [lines, lines, List.cons_append, List.cons_append] at h
  obtain ⟨hhead, hbelow⟩ := List.cons.inj h
  rw [String.append_assoc, String.append_assoc, String.append_right_inj] at hhead
  obtain ⟨hlabel, hmark⟩ := label_mark_inj ht hu hhead
  obtain ⟨hchildren, hrest⟩ := childLines_inj
    (fun v hv name hname => ht name (mem_names_of_mem_children hv hname))
    (fun v hv name hname => hu name (mem_names_of_mem_children hv hname)) hafter hafter' hbelow
  rw [looksLike]
  exact ⟨⟨hlabel, hmark, hchildren⟩, hrest⟩

theorem childLines_inj {ts us : List Tree}
    (hts : ∀ t ∈ ts, ∀ name ∈ t.names, Declaration.isWord name = true)
    (hus : ∀ u ∈ us, ∀ name ∈ u.names, Declaration.isWord name = true) {margin : String}
    {after after' : List String} (hafter : Leaves style margin after)
    (hafter' : Leaves style margin after')
    (h : childLines style.glyphs marked margin ts ++ after =
      childLines style.glyphs marked' margin us ++ after') :
    looksLikeAll marked marked' ts us ∧ after = after' := by
  have hhead := congrArg List.head? h
  cases ts with
  | nil =>
    cases us with
    | nil => exact ⟨by rw [looksLikeAll]; trivial, h⟩
    | cons u us =>
      -- the first line behind no lines would be one of a child
      rw [head?_childLines, childLines, List.nil_append] at hhead
      exact absurd rfl (hafter _ hhead _ (isGlyph_connector style _) _)
  | cons t rest =>
    cases us with
    | nil =>
      rw [head?_childLines, childLines, List.nil_append] at hhead
      exact absurd rfl (hafter' _ hhead.symm _ (isGlyph_connector style _) _)
    | cons u us =>
      rw [head?_childLines, head?_childLines, Option.some.injEq, String.append_right_inj] at hhead
      have hlast := connector_injective
        ((isGlyph_connector style _).append_inj (isGlyph_connector style _) hhead)
      rw [childLines, childLines, ← hlast, List.append_assoc, List.append_assoc] at h
      obtain ⟨hfirst, h⟩ := lines_inj (hts t List.mem_cons_self) (hus u List.mem_cons_self)
        (hafter.behind_child marked _ rest) (hafter'.behind_child marked' _ us) h
      obtain ⟨hmore, hafters⟩ := childLines_inj
        (fun v hv => hts v (List.mem_cons_of_mem _ hv))
        (fun v hv => hus v (List.mem_cons_of_mem _ hv)) hafter hafter' h
      rw [looksLikeAll]
      exact ⟨⟨hfirst, hmore⟩, hafters⟩

end

/-! ### Lines in a text -/

mutual

/-- No line of a tree has a line end in it. -/
theorem not_mem_lines {t : Tree} (ht : ∀ name ∈ t.names, Declaration.isWord name = true)
    {lead margin : String} (hlead : '\n' ∉ lead.toList) (hmargin : '\n' ∉ margin.toList) :
    ∀ line ∈ lines style.glyphs marked lead margin t, '\n' ∉ line.toList := by
  obtain ⟨id, label, children⟩ := t
  have hlabel : '\n' ∉ label.text.toList := by
    have htext := Symbol.isLayout_text fun name hname => ht name (mem_names_node.2 (Or.inl hname))
    exact fun hmem => List.any_eq_false.1 htext _ hmem (by decide)
  have hmark : '\n' ∉ (mark marked id).toList := by
    unfold mark
    split <;> decide
  intro line hline
  rw [lines] at hline
  rcases List.mem_cons.1 hline with rfl | hline
  · exact not_mem_append (not_mem_append hlead hlabel) hmark
  · exact not_mem_childLines (fun v hv name hname => ht name (mem_names_of_mem_children hv hname))
      hmargin line hline

theorem not_mem_childLines {ts : List Tree}
    (hts : ∀ t ∈ ts, ∀ name ∈ t.names, Declaration.isWord name = true) {margin : String}
    (hmargin : '\n' ∉ margin.toList) :
    ∀ line ∈ childLines style.glyphs marked margin ts, '\n' ∉ line.toList := by
  intro line hline
  cases ts with
  | nil =>
    rw [childLines] at hline
    exact absurd hline List.not_mem_nil
  | cons t rest =>
    have hbehind : ∀ {glyph : String}, IsGlyph style glyph → '\n' ∉ (margin ++ glyph).toList :=
      fun hglyph => not_mem_append hmargin hglyph.not_mem
    rw [childLines] at hline
    rcases List.mem_append.1 hline with hline | hline
    · exact not_mem_lines (hts t List.mem_cons_self)
        (hbehind (isGlyph_connector style _)) (hbehind (isGlyph_column style _)) line hline
    · exact not_mem_childLines (fun v hv => hts v (List.mem_cons_of_mem _ hv)) hmargin line hline

end

/-- Lines are found again in the text in which each of them is ended. -/
theorem join_lines_injective {xs ys : List String} (hxs : ∀ x ∈ xs, '\n' ∉ x.toList)
    (hys : ∀ y ∈ ys, '\n' ∉ y.toList)
    (h : String.join (xs.map (· ++ "\n")) = String.join (ys.map (· ++ "\n"))) : xs = ys := by
  have hne : ∀ (y : String) (ys : List String), String.join ((y :: ys).map (· ++ "\n")) ≠ "" := by
    intro y ys hempty
    rw [List.map_cons, String.join_cons, String.append_eq_empty_iff] at hempty
    exact absurd (String.append_eq_empty_iff.1 hempty.1).2 (by decide)
  have hstop : ∀ {y : String}, '\n' ∉ y.toList → y.toList.any (· == '\n') = false := by
    intro y hy
    rw [List.any_eq_false]
    intro c hc heq
    exact hy (beq_iff_eq.1 heq ▸ hc)
  induction xs generalizing ys with
  | nil =>
    cases ys with
    | nil => rfl
    | cons y ys => exact absurd h.symm (hne y ys)
  | cons x xs ih =>
    cases ys with
    | nil => exact absurd h (hne x xs)
    | cons y ys =>
      rw [List.map_cons, List.map_cons, String.join_cons, String.join_cons, String.append_assoc,
        String.append_assoc] at h
      obtain ⟨hxs₁, hxs₂⟩ := List.forall_mem_cons.1 hxs
      obtain ⟨hys₁, hys₂⟩ := List.forall_mem_cons.1 hys
      obtain ⟨rfl, hrest⟩ := append_inj_of_stop (hstop hxs₁) (hstop hys₁)
        (head?_append_all (by decide) _) (head?_append_all (by decide) _) h
      rw [ih hxs₂ hys₂ ((String.append_right_inj _).1 hrest)]

/-- **Printouts are faithful.**  A printout has one line for each node, in preorder: a column for each
ancestor below the root, blank where the ancestor is a last child, the connector, the label, and the
mark if the node is marked.  Two trees have the same printout if they look alike, and only then. -/
theorem printout_faithful {t : Tree} (ht : ∀ name ∈ t.names, Declaration.isWord name = true)
    (style : PrintStyle) (marked : List NodeId) :
    (∃ rows : List String, t.printout style marked = String.join (rows.map (· ++ "\n")) ∧
        rows.length = t.size ∧ (∀ row ∈ rows, '\n' ∉ row.toList) ∧
        ∀ (k : Nat) (u : Tree), t.preorder[k]? = some u →
          ∃ p, t.positions[k]? = some p ∧ t.at? p = some u ∧
            rows[k]? = some (indent style.glyphs t p ++ u.label.text ++ mark marked u.id)) ∧
      ∀ (u : Tree) (marked' : List NodeId), (∀ name ∈ u.names, Declaration.isWord name = true) →
        (t.printout style marked = u.printout style marked' ↔ looksLike marked marked' t u) := by
  have hrows : ∀ {v : Tree} {marks : List NodeId},
      (∀ name ∈ v.names, Declaration.isWord name = true) →
      ∀ row ∈ lines style.glyphs marks "" "" v, '\n' ∉ row.toList := fun hv =>
    not_mem_lines hv (by decide) (by decide)
  refine ⟨⟨lines style.glyphs marked "" "" t, rfl, ?_, hrows ht, fun k u hu => ?_⟩,
    fun u marked' hu => ⟨fun h => ?_, fun h => ?_⟩⟩
  · rw [lines_length, size_eq_nodes]
  · obtain ⟨p, hp, hat⟩ := exists_getElem?_positions hu
    exact ⟨p, hp, hat, getElem?_lines style.glyphs marked hp hu⟩
  · have hnone : Leaves style "" [] := fun line hline => by cases hline
    have hlines : lines style.glyphs marked "" "" t ++ [] =
        lines style.glyphs marked' "" "" u ++ [] :=
      congrArg (· ++ []) (join_lines_injective (hrows ht) (hrows hu) h)
    exact (lines_inj ht hu hnone hnone hlines).1
  · rw [printout, printout, lines_congr h]

/-- A call with its name and its argument, and an amount. -/
def stabBlock : Tree :=
  node 0 (.rule .block)
    [node 1 (.rule (.predicate 0))
      [node 2 (.terminal (.name "gets_stab")) [], node 3 (.terminal .action) []],
      node 4 (.rule .amount) [node 5 (.terminal (.value (.int 2))) []]]

/-- The block with the block and the call marked, and what has the same printout under other numbers. -/
theorem printout_faithful_stabBlock :
    (∀ name ∈ stabBlock.names, Declaration.isWord name = true) ∧
      stabBlock.printout .ascii [0, 1] =
        "IF_BLOCK (X)\n|-- PREDICATE_0 (X)\n|   |-- gets_stab\n|   +-- action\n" ++
          "+-- SCORE_AMOUNT\n    +-- 2\n" ∧
      stabBlock.printout .ascii [0, 1] = (stabBlock.mapIds (· + 9)).printout .ascii [10, 9] ∧
      looksLike [0, 1] [10, 9] stabBlock (stabBlock.mapIds (· + 9)) := by
  have hnames : ∀ name ∈ stabBlock.names, Declaration.isWord name = true := by decide
  have hnames' : ∀ name ∈ (stabBlock.mapIds (· + 9)).names, Declaration.isWord name = true := by
    decide
  have hsame : stabBlock.printout .ascii [0, 1] =
      (stabBlock.mapIds (· + 9)).printout .ascii [10, 9] := by decide +kernel
  refine ⟨hnames, by decide +kernel, hsame, ?_⟩
  exact ((printout_faithful hnames .ascii [0, 1]).2 _ [10, 9] hnames').1 hsame

end Tree

end ScoreScript
