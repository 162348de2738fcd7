import ScoreScript.Proofs.Declaration.Parsing

/-!
# Beginnings of declarations

What was read in full stays what it is when something else follows, as long as no word goes on
across the seam (`Piece.Carries`).  What was only begun can be finished (`Piece.Begun`): the gap
that reading stopped behind is made longer by a character that no word goes on with, and the pieces
that are missing are filled in.

* `Piece.Separates` — gaps, and the character that makes them longer;
* `Piece.carries_gap`, `Piece.carries_declaration` — pieces in front of another text;
* `Piece.begun_gap` — pieces that reading stopped in front of;
* `Piece.Begun.cons`, `Piece.Begun.fill` — what is in front of a begun piece, and behind it.
-/

namespace ScoreScript.Declaration

namespace Piece

/-! ### Seams -/

/-- No word goes on at the front of such a text. -/
def Clear (rest : List Char) : Prop :=
  rest.head?.any isWordPart = false

/-- A text that no word goes on in, if none does in the one it takes the place of. -/
def Joins (rest rest' : List Char) : Prop :=
  Clear rest → Clear rest'

/-- Behind the same front, only the front is seen. -/
theorem Joins.append {rest rest' : List Char} (h : Joins rest rest') (front : List Char) :
    Joins (front ++ rest) (front ++ rest') := by
  cases front with
  | nil => exact h
  | cons c front => exact id

/-- Pieces that stay what they are when another text follows. -/
def Carries (piece : Piece) : Prop :=
  ∀ ⦃text rest⦄, piece text rest →
    ∃ front, text = front ++ rest ∧ ∀ rest', Joins rest rest' → piece (front ++ rest') rest'

/-- Gaps that a character of their own makes longer, and that are carried where the text behind
them ends no line. -/
structure Separates (sep : Char) (gap : Piece) (skip : List Char → List Char) : Prop
    extends Skips gap skip where
  clear : isWordPart sep = false
  carries : ∀ ⦃text rest⦄, gap text rest → ∃ front, text = front ++ rest ∧
    (∀ tail, gap (front ++ sep :: tail) tail) ∧
    (¬ EndsLine rest → ∀ rest', gap (front ++ rest') rest')

/-! ### Gaps -/

/-- A line that ends behind a front, or in it, still ends when the rest is replaced by a line feed,
or when it was not the rest that ended it. -/
theorem EndsLine.append {front rest rest' : List Char} (h : EndsLine (front ++ rest))
    (hrest : EndsLine rest → rest'.head? = some '\n') : EndsLine (front ++ rest') := by
  cases front with
  | nil =>
    obtain ⟨tail, rfl⟩ := List.head?_eq_some_iff.1 (hrest h)
    exact .lineFeed tail
  | cons c front =>
    rw [List.cons_append] at h ⊢
    generalize hline : front ++ rest = line at h
    cases h with
    | lineFeed => exact .lineFeed _
    | carriageReturn tail =>
      cases front with
      | nil =>
        obtain rfl : rest = '\n' :: tail := hline
        obtain ⟨tail', rfl⟩ := List.head?_eq_some_iff.1 (hrest (.lineFeed tail))
        exact .carriageReturn tail'
      | cons c' front =>
        obtain rfl := (List.cons.inj hline).1
        exact .carriageReturn _

theorem separates_filler : Separates '\n' Filler skipFiller where
  toSkips := skips_filler
  clear := by decide
  carries := by
    intro text rest h
    induction h with
    | none text =>
      refine ⟨[], rfl, fun tail => ?_, fun _ rest' => .none rest'⟩
      exact .blank (by decide) (.none tail)
    | @blank c text rest hblank _ ih =>
      obtain ⟨front, rfl, hsep, hrest⟩ := ih
      exact ⟨c :: front, rfl, fun tail => .blank hblank (hsep tail),
        fun hend rest' => .blank hblank (hrest hend rest')⟩
    | @comment body text rest hbody hend _ ih =>
      obtain ⟨front, rfl, hsep, hrest⟩ := ih
      refine ⟨'#' :: (body ++ front), by simp, ?_, ?_⟩
      · intro tail
        have hline : EndsLine (front ++ '\n' :: tail) :=
          hend.append fun _ => rfl
        have hgap := Filler.comment hbody hline (hsep tail)
        rwa [← List.append_assoc] at hgap
      · intro hne rest'
        have hline : EndsLine (front ++ rest') := hend.append fun h => absurd h hne
        have hgap := Filler.comment hbody hline (hrest hne rest')
        rwa [← List.append_assoc] at hgap

theorem separates_spaces : Separates ' ' Spaces skipSpaces where
  toSkips := skips_spaces
  clear := by decide
  carries := by
    intro text rest h
    induction h with
    | none text => exact ⟨[], rfl, fun tail => .space (.none tail), fun _ rest' => .none rest'⟩
    | space _ ih =>
      obtain ⟨front, rfl, hsep, hrest⟩ := ih
      exact ⟨' ' :: front, rfl, fun tail => .space (hsep tail),
        fun hend rest' => .space (hrest hend rest')⟩
    | tab _ ih =>
      obtain ⟨front, rfl, hsep, hrest⟩ := ih
      exact ⟨'\t' :: front, rfl, fun tail => .tab (hsep tail),
        fun hend rest' => .tab (hrest hend rest')⟩

theorem Solid.not_endsLine {piece : Piece} (hsolid : Solid piece) {text rest : List Char}
    (h : piece text rest) : ¬ EndsLine text := by
  obtain ⟨c, cs, rfl, hc⟩ := hsolid text rest h
  intro hend
  cases hend <;> exact absurd hc (by decide)

/-! ### Pieces that are carried -/

section Carrying

variable {piece gap : Piece} {pieces : List Piece} {sep : Char} {skip : List Char → List Char}

theorem carries_nil : Carries (inOrder []) := by
  intro text rest h
  exact ⟨[], h, fun rest' _ => rfl⟩

theorem carries_cons (hpiece : Carries piece) (hpieces : Carries (inOrder pieces)) :
    Carries (inOrder (piece :: pieces)) := by
  rintro text rest ⟨mid, h, hmid⟩
  obtain ⟨front, rfl, hfront⟩ := hpiece h
  obtain ⟨front', rfl, hfront'⟩ := hpieces hmid
  refine ⟨front ++ front', by simp, fun rest' hrest => ?_⟩
  rw [List.append_assoc]
  exact ⟨front' ++ rest', hfront _ (hrest.append front'), hfront' rest' hrest⟩

/-- A gap is carried together with the solid piece behind it. -/
theorem carries_gap (hgap : Separates sep gap skip) (hsolid : Solid piece) (hpiece : Carries piece)
    (hpieces : Carries (inOrder pieces)) : Carries (inOrder (gap :: piece :: pieces)) := by
  rintro text rest ⟨before, h, hbefore⟩
  have hend : ¬ EndsLine before := by
    obtain ⟨mid, hmid, _⟩ := hbefore
    exact hsolid.not_endsLine hmid
  obtain ⟨front, rfl, _, hfront⟩ := hgap.carries h
  obtain ⟨front', rfl, hfront'⟩ := carries_cons hpiece hpieces hbefore
  refine ⟨front ++ front', by simp, fun rest' hrest => ?_⟩
  rw [List.append_assoc]
  exact ⟨front' ++ rest', hfront hend _, hfront' rest' hrest⟩

theorem carries_exactly (run : String) : Carries (exactly run) := by
  intro text rest h
  exact ⟨run.toList, h, fun rest' _ => rfl⟩

theorem carries_word (name : String) : Carries (word name) := by
  rintro text rest ⟨htext, hname, hrest⟩
  exact ⟨name.toList, htext, fun rest' hjoins => ⟨rfl, hname, hjoins hrest⟩⟩

/-- A gap and a fixed run of characters. -/
theorem carries_gap_exactly (hgap : Separates sep gap skip) {run : String}
    (h : run.toList.head?.any (!beginsGap ·) = true) (hpieces : Carries (inOrder pieces)) :
    Carries (inOrder (gap :: exactly run :: pieces)) :=
  carries_gap hgap (solid_exactly h) (carries_exactly run) hpieces

/-- A gap and a word. -/
theorem carries_gap_word (hgap : Separates sep gap skip) (name : String)
    (hpieces : Carries (inOrder pieces)) : Carries (inOrder (gap :: word name :: pieces)) :=
  carries_gap hgap (solid_word name) (carries_word name) hpieces

end Carrying

theorem carries_moreParams (params : List Param) : Carries (moreParams params) := by
  induction params with
  | nil => exact carries_nil
  | cons param params ih =>
    refine carries_cons ?_ ih
    apply carries_gap_exactly separates_filler (by decide)
    exact carries_gap_word separates_filler param.text carries_nil

theorem carries_innerParams (params : List Param) : Carries (innerParams params) := by
  cases params with
  | nil => exact carries_nil
  | cons param params =>
    apply carries_gap_word separates_filler param.text
    exact carries_cons (carries_moreParams params) carries_nil

theorem carries_paramList (params : List Param) : Carries (paramList params) := by
  apply carries_gap_exactly separates_filler (by decide)
  apply carries_cons (carries_innerParams params)
  exact carries_gap_exactly separates_filler (by decide) carries_nil

theorem carries_resultType (type : String) : Carries (resultType type) := by
  apply carries_gap_exactly separates_filler (by decide)
  exact carries_gap_word separates_filler type carries_nil

theorem carries_tag (capability : Capabilities) : Carries (tag capability) := by
  rintro text rest (⟨hcore, htext⟩ | ⟨name, hname, h⟩)
  · exact ⟨[], htext, fun rest' _ => .inl ⟨hcore, rfl⟩⟩
  · have hcarries : Carries
        (inOrder [Spaces, exactly "[", Spaces, word name, Spaces, exactly "]"]) := by
      apply carries_gap_exactly separates_spaces (by decide)
      apply carries_gap_word separates_spaces name
      exact carries_gap_exactly separates_spaces (by decide) carries_nil
    obtain ⟨front, htext, hfront⟩ := hcarries h
    exact ⟨front, htext, fun rest' hrest => .inr ⟨name, hname, hfront rest' hrest⟩⟩

theorem carries_body (d : Declaration) : Carries (body d) := by
  apply carries_gap_word separates_filler d.name
  apply carries_cons (carries_paramList d.params)
  apply carries_cons (carries_resultType d.returns)
  exact carries_cons (carries_tag d.capability) carries_nil

theorem carries_declaration (d : Declaration) : Carries (declaration d) := by
  apply carries_gap_exactly separates_filler (by decide)
  exact carries_cons (carries_body d) carries_nil

theorem carries_declarations (ds : List Declaration) : Carries (inOrder (ds.map declaration)) := by
  induction ds with
  | nil => exact carries_nil
  | cons d ds ih => exact carries_cons (carries_declaration d) ih

/-! ### Pieces that are begun -/

/-- One piece of a family. -/
def Any {α : Type} (piece : α → Piece) : Piece :=
  fun text rest => ∃ a, piece a text rest

/-- What the text has in front of `rest` begins such a piece, and a clear text ends it before
anything that is clear. -/
def Begun (piece : Piece) (text rest : List Char) : Prop :=
  ∃ before more, text = before ++ rest ∧ ∀ after, Clear after →
    Clear (more ++ after) ∧ piece (before ++ (more ++ after)) after

/-- Pieces that some clear text is one of. -/
def Fillable (piece : Piece) : Prop :=
  ∃ fill, ∀ after, Clear after → Clear (fill ++ after) ∧ piece (fill ++ after) after

section Beginning

variable {piece piece' gap : Piece} {pieces : List Piece} {text mid rest : List Char} {sep : Char}
  {skip : List Char → List Char}

theorem Begun.mono (h : Begun piece text rest)
    (hsub : ∀ text rest, piece text rest → piece' text rest) : Begun piece' text rest := by
  obtain ⟨before, more, htext, hmore⟩ := h
  exact ⟨before, more, htext, fun after hafter => (hmore after hafter).imp id (hsub _ _)⟩

/-- Behind a piece that was read in full. -/
theorem Begun.cons (h : Begun (inOrder pieces) mid rest) (hcarries : Carries piece)
    (hpiece : piece text mid) : Begun (inOrder (piece :: pieces)) text rest := by
  obtain ⟨front, rfl, hfront⟩ := hcarries hpiece
  obtain ⟨before, more, rfl, hmore⟩ := h
  refine ⟨front ++ before, more, by simp, fun after hafter => ?_⟩
  obtain ⟨hclear, hend⟩ := hmore after hafter
  have hjoins : Joins (before ++ rest) (before ++ (more ++ after)) :=
    Joins.append (fun _ => hclear) before
  rw [List.append_assoc]
  exact ⟨hclear, _, hfront _ hjoins, hend⟩

/-- Behind several pieces that were read in full. -/
theorem Begun.append {pieces' : List Piece} (h : Begun (inOrder pieces') mid rest)
    (hcarries : Carries (inOrder pieces)) (hpieces : inOrder pieces text mid) :
    Begun (inOrder (pieces ++ pieces')) text rest := by
  refine (h.cons hcarries hpieces).mono fun text rest => ?_
  rw [inOrder_append]
  exact id

/-- Behind a gap and a fixed run of characters. -/
theorem Begun.behind_exactly (h : Begun (inOrder pieces) mid rest) (hgap : Separates sep gap skip)
    (run : String) (hrun : run.toList.head?.any (!beginsGap ·) = true)
    (hopen : skip text = run.toList ++ mid) :
    Begun (inOrder (gap :: exactly run :: pieces)) text rest :=
  h.append (carries_gap_exactly hgap hrun carries_nil)
    ((inOrder_gap_exactly_iff hgap.toSkips hrun).2 ⟨mid, hopen, rfl⟩)

/-- Behind a gap and a word. -/
theorem Begun.behind_word (h : Begun (inOrder pieces) mid rest) (hgap : Separates sep gap skip)
    {name : String} (hword : readWord (skip text) = some (name, mid)) :
    Begun (inOrder (gap :: word name :: pieces)) text rest :=
  h.append (carries_gap_word hgap name carries_nil)
    ((inOrder_gap_word_iff hgap.toSkips).2 ⟨mid, hword, rfl⟩)

/-- The pieces behind one that was begun are filled in. -/
theorem Begun.fill (h : Begun piece text rest) (hfill : Fillable (inOrder pieces)) :
    Begun (inOrder (piece :: pieces)) text rest := by
  obtain ⟨before, more, htext, hmore⟩ := h
  obtain ⟨fill, hfill⟩ := hfill
  refine ⟨before, more ++ fill, htext, fun after hafter => ?_⟩
  obtain ⟨hclear, hpieces⟩ := hfill after hafter
  obtain ⟨hclear', hpiece⟩ := hmore (fill ++ after) hclear
  rw [List.append_assoc]
  exact ⟨hclear', fill ++ after, hpiece, hpieces⟩

/-- Reading stopped behind a gap: the gap is made longer, and the pieces are filled in. -/
theorem begun_gap (hgap : Separates sep gap skip) (text : List Char) (fill : String)
    (hfill : ∀ after, Clear after → inOrder pieces (fill.toList ++ after) after) :
    Begun (inOrder (gap :: pieces)) text (skip text) := by
  obtain ⟨front, htext, hsep, _⟩ := hgap.carries (hgap.gap_skip text)
  refine ⟨front, sep :: fill.toList, htext, fun after hafter => ⟨hgap.clear, ?_⟩⟩
  exact ⟨fill.toList ++ after, hsep _, hfill after hafter⟩

end Beginning

/-! ### Pieces that are filled in -/

theorem fillable_nil : Fillable (inOrder []) :=
  ⟨[], fun _ hafter => ⟨hafter, rfl⟩⟩

theorem fillable_filler : Fillable (inOrder [Filler]) :=
  ⟨[], fun after hafter => ⟨hafter, after, .none after, rfl⟩⟩

theorem fillable_closeParen : Fillable (inOrder [Filler, exactly ")"]) :=
  ⟨[')'], fun after _ => ⟨rfl, ')' :: after, .none _, after, rfl, rfl⟩⟩

theorem fillable_tag : Fillable (inOrder [tag .core]) :=
  ⟨[], fun after hafter => ⟨hafter, after, .inl ⟨rfl, rfl⟩, rfl⟩⟩

/-- The arrow, the word `a` and no tag. -/
theorem inOrder_resultType_tag {after : List Char} (hafter : Clear after) :
    inOrder [resultType "a", tag .core] ("->a".toList ++ after) after :=
  ⟨after, ⟨_, .none _, 'a' :: after, rfl, _, .none _, after, ⟨rfl, by decide, hafter⟩, rfl⟩,
    after, .inl ⟨rfl, rfl⟩, rfl⟩

theorem fillable_resultType_tag : Fillable (inOrder [resultType "a", tag .core]) :=
  ⟨"->a".toList, fun _ hafter => ⟨rfl, inOrder_resultType_tag hafter⟩⟩

end Piece

end ScoreScript.Declaration
