import ScoreScript.Proofs.Declaration.Word

/-!
# The grammar of declarations

A sort of pieces is given by the texts that begin with such a piece, each with the text behind it.
What is behind a piece counts: a comment goes on to the end of its line, and a word as far as it
can.

* `Piece.inOrder` — pieces one after another;
* `Piece.declaration`, `Piece.declarations` — the grammar;
* `Piece.Skips` — gaps between pieces, and what skips them;
* `Piece.Skips.inOrder_iff` — a gap before a piece ends where skipping it ends.
-/

namespace ScoreScript.Declaration

/-- A sort of pieces: what may stand in front of a text, as the whole text and the text behind. -/
abbrev Piece := List Char → List Char → Prop

namespace Piece

/-! ### Characters and words -/

/-- One piece of each sort, one after another. -/
def inOrder : List Piece → Piece
  | [] => fun text rest => text = rest
  | piece :: pieces => fun text rest => ∃ mid, piece text mid ∧ inOrder pieces mid rest

/-- A fixed run of characters. -/
def exactly (run : String) : Piece :=
  fun text rest => text = run.toList ++ rest

/-- A word, behind which nothing goes on it. -/
def word (name : String) : Piece :=
  fun text rest => text = name.toList ++ rest ∧ isWord name = true ∧
    rest.head?.any isWordPart = false

/-! ### Gaps -/

/-- Where a comment may end. -/
inductive EndsLine : List Char → Prop
  | text : EndsLine []
  | lineFeed (text : List Char) : EndsLine ('\n' :: text)
  | carriageReturn (text : List Char) : EndsLine ('\r' :: '\n' :: text)

/-- Any number of blanks and comments. -/
inductive Filler : List Char → List Char → Prop
  | none (text : List Char) : Filler text text
  | blank {c : Char} {text rest : List Char} :
    isBlank c = true → Filler text rest → Filler (c :: text) rest
  | comment {body text rest : List Char} :
    (∀ c ∈ body, isLineEnd c = false) → EndsLine text → Filler text rest →
    Filler ('#' :: (body ++ text)) rest

/-- Any number of spaces and tabs. -/
inductive Spaces : List Char → List Char → Prop
  | none (text : List Char) : Spaces text text
  | space {text rest : List Char} : Spaces text rest → Spaces (' ' :: text) rest
  | tab {text rest : List Char} : Spaces text rest → Spaces ('\t' :: text) rest

/-! ### Declarations -/

/-- Parameters, each behind a comma. -/
def moreParams (params : List Param) : Piece :=
  inOrder (params.map fun param => inOrder [Filler, exactly ",", Filler, word param.text])

/-- Nothing, or parameters with commas between them. -/
def innerParams : List Param → Piece
  | [] => inOrder []
  | param :: params => inOrder [Filler, word param.text, moreParams params]

/-- Parameters in parentheses. -/
def paramList (params : List Param) : Piece :=
  inOrder [Filler, exactly "(", innerParams params, Filler, exactly ")"]

/-- An arrow with the word behind it. -/
def resultType (type : String) : Piece :=
  inOrder [Filler, exactly "->", Filler, word type]

/-- A tag in brackets.  Nothing stands for the default. -/
def tag (capability : Capabilities) : Piece :=
  fun text rest => capability = .core ∧ text = rest ∨
    ∃ name, Capabilities.ofTag? name = some capability ∧
      inOrder [Spaces, exactly "[", Spaces, word name, Spaces, exactly "]"] text rest

/-- What stands behind the keyword of a declaration. -/
def body (d : Declaration) : Piece :=
  inOrder [Filler, word d.name, paramList d.params, resultType d.returns, tag d.capability]

/-- One declaration with the gap before it. -/
def declaration (d : Declaration) : Piece :=
  inOrder [Filler, exactly "predicate", body d]

/-- Declarations one after another, with a gap behind the last. -/
def declarations (ds : List Declaration) : Piece :=
  inOrder (ds.map declaration ++ [Filler])

/-! ### Skipping gaps -/

/-- The characters that begin blanks and comments. -/
def beginsGap (c : Char) : Bool :=
  isBlank c || c == '#'

/-- What skips the gaps of some sort takes all of a gap at the front of a text, and nothing else. -/
structure Skips (gap : Piece) (skip : List Char → List Char) : Prop where
  gap_skip : ∀ text, gap text (skip text)
  skip_eq_of_gap : ∀ {text mid}, gap text mid → skip text = skip mid
  skip_cons : ∀ {c rest}, beginsGap c = false → skip (c :: rest) = c :: rest

/-- Pieces that begin with a character of their own. -/
def Solid (piece : Piece) : Prop :=
  ∀ text rest, piece text rest → ∃ c cs, text = c :: cs ∧ beginsGap c = false

/-- A gap before a solid piece ends where skipping it ends. -/
theorem Skips.inOrder_iff {gap piece : Piece} {skip : List Char → List Char}
    (hskips : Skips gap skip) (hsolid : Solid piece) {pieces : List Piece} {text rest : List Char} :
    inOrder (gap :: piece :: pieces) text rest ↔
      ∃ mid, piece (skip text) mid ∧ inOrder pieces mid rest := by
  constructor
  · rintro ⟨before, hgap, mid, hpiece, hpieces⟩
    obtain ⟨c, cs, hbefore, hc⟩ := hsolid before mid hpiece
    have hstop : skip before = before := by rw [hbefore, hskips.skip_cons hc]
    rw [← hstop, ← hskips.skip_eq_of_gap hgap] at hpiece
    exact ⟨mid, hpiece, hpieces⟩
  · rintro ⟨mid, hpiece, hpieces⟩
    exact ⟨skip text, hskips.gap_skip text, mid, hpiece, hpieces⟩

theorem solid_exactly {run : String} (h : run.toList.head?.any (!beginsGap ·) = true) :
    Solid (exactly run) := by
  intro text rest htext
  cases hrun : run.toList with
  | nil =>
    rw [hrun] at h
    cases h
  | cons c cs =>
    rw [hrun] at h
    rw [exactly, hrun, List.cons_append] at htext
    exact ⟨c, cs ++ rest, htext, by simpa using h⟩

theorem beginsGap_of_isWordStart {c : Char} (h : isWordStart c = true) : beginsGap c = false := by
  cases hgap : beginsGap c with
  | false => rfl
  | true =>
    simp only [beginsGap, isBlank, Bool.or_eq_true, beq_iff_eq] at hgap
    rcases hgap with ((((rfl | rfl) | rfl) | rfl) | rfl) | rfl <;> exact absurd h (by decide)

theorem solid_word (name : String) : Solid (word name) := by
  rintro text rest ⟨htext, hname, _⟩
  obtain ⟨c, cs, hcs, hstart, _⟩ := isWord_iff.1 hname
  rw [hcs, List.cons_append] at htext
  exact ⟨c, cs ++ rest, htext, beginsGap_of_isWordStart hstart⟩

theorem atLineEnd_iff {text : List Char} : atLineEnd text = true ↔ EndsLine text := by
  constructor
  · intro h
    unfold atLineEnd at h
    split at h
    · exact .text
    · exact .lineFeed _
    · exact .carriageReturn _
    · cases h
  · intro h
    cases h <;> rfl

theorem dropWhile_append_of_endsLine {body text : List Char}
    (hbody : ∀ c ∈ body, isLineEnd c = false) (htext : EndsLine text) :
    (body ++ text).dropWhile (!isLineEnd ·) = text := by
  rw [List.dropWhile_append_of_pos (by simpa using hbody)]
  cases htext <;> rfl

theorem skips_filler : Skips Filler skipFiller where
  gap_skip text := by
    fun_induction skipFiller text with
    | case1 => exact .none []
    | case2 c rest hblank ih => exact .blank hblank ih
    | case3 c rest _ hcomment ih =>
      obtain ⟨rfl, hend⟩ := hcomment
      have hbody : ∀ c ∈ rest.takeWhile (!isLineEnd ·), isLineEnd c = false := by
        intro c hc
        simpa using List.all_eq_true.1 List.all_takeWhile c hc
      have hgap := Filler.comment hbody (atLineEnd_iff.1 hend) ih
      rwa [List.takeWhile_append_dropWhile] at hgap
    | case4 c rest => exact .none (c :: rest)
  skip_eq_of_gap h := by
    induction h with
    | none => rfl
    | blank hblank _ ih => rw [skipFiller, if_pos hblank, ih]
    | @comment body text rest hbody hend _ ih =>
      have hdrop := dropWhile_append_of_endsLine hbody hend
      rw [skipFiller, if_neg (by decide), hdrop, if_pos ⟨rfl, atLineEnd_iff.2 hend⟩, ih]
  skip_cons := by
    intro c rest hc
    simp only [beginsGap, Bool.or_eq_false_iff, beq_eq_false_iff_ne, ne_eq] at hc
    rw [skipFiller, if_neg (by simp [hc.1]), if_neg (fun h => hc.2 h.1)]

theorem skips_spaces : Skips Spaces skipSpaces where
  gap_skip text := by
    induction text with
    | nil => exact .none []
    | cons c rest ih =>
      unfold skipSpaces at ih ⊢
      rw [List.dropWhile_cons]
      split
      · rename_i hc
        simp only [Bool.or_eq_true, beq_iff_eq] at hc
        rcases hc with rfl | rfl
        · exact .space ih
        · exact .tab ih
      · exact .none (c :: rest)
  skip_eq_of_gap h := by
    induction h with
    | none => rfl
    | space _ ih | tab _ ih => exact ih
  skip_cons := by
    intro c rest hc
    simp only [beginsGap, isBlank, Bool.or_eq_false_iff] at hc
    rw [skipSpaces, List.dropWhile_cons_of_neg]
    simp [hc.1.1.1.1.1, hc.1.1.1.1.2]

/-! ### Pieces one after another -/

theorem inOrder_cons {piece : Piece} {pieces : List Piece} {text rest : List Char} :
    inOrder (piece :: pieces) text rest ↔ ∃ mid, piece text mid ∧ inOrder pieces mid rest :=
  Iff.rfl

theorem inOrder_append {pieces pieces' : List Piece} {text rest : List Char} :
    inOrder (pieces ++ pieces') text rest ↔
      ∃ mid, inOrder pieces text mid ∧ inOrder pieces' mid rest := by
  induction pieces generalizing text with
  | nil => simp [inOrder]
  | cons piece pieces ih =>
    rw [List.cons_append, inOrder_cons]
    constructor
    · rintro ⟨mid, hpiece, h⟩
      obtain ⟨mid', hpieces, hpieces'⟩ := ih.1 h
      exact ⟨mid', ⟨mid, hpiece, hpieces⟩, hpieces'⟩
    · rintro ⟨mid', ⟨mid, hpiece, hpieces⟩, hpieces'⟩
      exact ⟨mid, hpiece, ih.2 ⟨mid', hpieces, hpieces'⟩⟩

end Piece

end ScoreScript.Declaration
