import ScoreScript.Proofs.Declaration.Grammar
import ScoreScript.Proofs.Result

/-!
# Texts of declarations

The readers take exactly what the grammar describes.  Most of them know where their piece ends
whatever is behind it.  Only a list of parameters, a tag and a list of declarations end where
nothing more of their sort follows.

* `readParams_eq_ok_iff`, `readReturns_eq_ok_iff` — pieces that end by themselves;
* `declaration_of_readDeclaration`, `readDeclaration_of_declaration` — one declaration;
* `parse_eq_ok_iff_declarations` — a whole text.
-/

namespace ScoreScript

theorem Kind.ofTypeName?_eq_some_iff {name : String} {kind : Kind} :
    ofTypeName? name = some kind ↔ name = kind.typeName := by
  constructor
  · intro h
    have hname := List.find?_some h
    exact (beq_iff_eq.1 hname).symm
  · rintro rfl
    exact ofTypeName?_typeName kind

theorem Param.ofText?_eq_some_iff {word : String} {param : Param} :
    ofText? word = some param ↔ word = param.text := by
  constructor
  · intro h
    unfold ofText? at h
    split at h
    · rw [← Option.some.inj h]
      assumption
    · split at h
      · rw [← Option.some.inj h]
        assumption
      · obtain ⟨kind, hkind, rfl⟩ := Option.map_eq_some_iff.1 h
        exact Kind.ofTypeName?_eq_some_iff.1 hkind
  · rintro rfl
    exact ofText?_text param

namespace Declaration

open Piece

variable {text rest : List Char}

/-! ### Gaps and what is behind them -/

section Gaps

variable {gap : Piece} {skip : List Char → List Char} {pieces : List Piece}

/-- A gap and a fixed run of characters. -/
theorem inOrder_gap_exactly_iff (hskips : Skips gap skip) {run : String}
    (h : run.toList.head?.any (!beginsGap ·) = true) :
    inOrder (gap :: exactly run :: pieces) text rest ↔
      ∃ mid, skip text = run.toList ++ mid ∧ inOrder pieces mid rest :=
  hskips.inOrder_iff (solid_exactly h)

/-- A gap and a word. -/
theorem inOrder_gap_word_iff (hskips : Skips gap skip) {name : String} :
    inOrder (gap :: word name :: pieces) text rest ↔
      ∃ mid, readWord (skip text) = some (name, mid) ∧ inOrder pieces mid rest := by
  simp only [readWord_eq_some_iff]
  exact hskips.inOrder_iff (solid_word name)

end Gaps

/-! ### Parameters -/

theorem readParam_eq_some_iff {param : Param} :
    readParam text = .ok (some (param, rest)) ↔
      readWord (skipFiller text) = some (param.text, rest) := by
  unfold readParam
  cases hword : readWord (skipFiller text) with
  | none => simp
  | some found =>
    obtain ⟨name, mid⟩ := found
    have hname : Param.ofText? name = some param ↔ name = param.text :=
      Param.ofText?_eq_some_iff
    cases hparam : Param.ofText? name with
    | none =>
      rw [hparam] at hname
      simpa [hparam] using fun h => absurd (hname.2 h) (by simp)
    | some param' =>
      rw [hparam, Option.some.injEq] at hname
      simp [hparam, hname]

theorem skipComma_eq_some_iff : skipComma text = some rest ↔ skipFiller text = ',' :: rest := by
  unfold skipComma
  split
  · rename_i tail htail
    simp [htail]
  · rename_i hne
    simpa using hne rest

/-- A gap and a parameter. -/
theorem inOrder_param_iff {param : Param} {pieces : List Piece} :
    inOrder (Filler :: word param.text :: pieces) text rest ↔
      ∃ mid, readParam text = .ok (some (param, mid)) ∧ inOrder pieces mid rest := by
  simp only [readParam_eq_some_iff]
  exact inOrder_gap_word_iff skips_filler

/-- A gap and a comma. -/
theorem inOrder_comma_iff {pieces : List Piece} :
    inOrder (Filler :: exactly "," :: pieces) text rest ↔
      ∃ mid, skipComma text = some mid ∧ inOrder pieces mid rest := by
  simp only [skipComma_eq_some_iff]
  exact inOrder_gap_exactly_iff skips_filler (by decide)

/-- The next of the parameters that stand behind commas. -/
theorem moreParams_cons_iff {param : Param} {params : List Param} :
    moreParams (param :: params) text rest ↔
      ∃ inside mid, skipComma text = some inside ∧ readParam inside = .ok (some (param, mid)) ∧
        moreParams params mid rest := by
  constructor
  · rintro ⟨mid, hfirst, hmore⟩
    obtain ⟨inside, hcomma, hfirst⟩ := inOrder_comma_iff.1 hfirst
    obtain ⟨mid', hparam, rfl⟩ := inOrder_param_iff.1 hfirst
    exact ⟨inside, mid', hcomma, hparam, hmore⟩
  · rintro ⟨inside, mid, hcomma, hparam, hmore⟩
    have hfirst : inOrder [Filler, word param.text] inside mid :=
      inOrder_param_iff.2 ⟨mid, hparam, rfl⟩
    exact ⟨mid, inOrder_comma_iff.2 ⟨inside, hcomma, hfirst⟩, hmore⟩

theorem moreParams_of_readMoreParams {params : List Param}
    (h : readMoreParams text = .ok (params, rest)) : moreParams params text rest := by
  fun_induction readMoreParams text generalizing params rest with
  | case1 text =>
    obtain ⟨rfl, rfl⟩ := Prod.mk.inj (Except.ok.inj h)
    rfl
  | case2 => cases h
  | case3 text =>
    obtain ⟨rfl, rfl⟩ := Prod.mk.inj (Except.ok.inj h)
    rfl
  | case4 => cases h
  | case5 text inside hcomma param mid hparam params' rest' hmore ih =>
    obtain ⟨rfl, rfl⟩ := Prod.mk.inj (Except.ok.inj h)
    exact moreParams_cons_iff.2 ⟨inside, mid, hcomma, hparam, ih hmore⟩

theorem readMoreParams_of_moreParams {params : List Param} (h : moreParams params text rest)
    (hend : skipComma rest = none) : readMoreParams text = .ok (params, rest) := by
  induction params generalizing text with
  | nil =>
    obtain rfl : text = rest := h
    rw [readMoreParams]
    split
    · rfl
    · rename_i inside hcomma
      rw [hend] at hcomma
      cases hcomma
  | cons param params ih =>
    obtain ⟨inside, mid, hcomma, hparam, hmore⟩ := moreParams_cons_iff.1 h
    have hrest := ih hmore
    -- of the ways to read on, what is known of the next parameter leaves one
    fun_cases readMoreParams text <;> simp_all

theorem innerParams_of_readInnerParams {ps : List Param}
    (h : readInnerParams text = .ok (ps, rest)) : innerParams ps text rest := by
  unfold readInnerParams at h
  split at h
  · cases h
  · obtain ⟨rfl, rfl⟩ := Prod.mk.inj (Except.ok.inj h)
    rfl
  · rename_i param mid hparam
    split at h
    · cases h
    · rename_i more rest' hmore
      obtain ⟨rfl, rfl⟩ := Prod.mk.inj (Except.ok.inj h)
      have hrest : inOrder [moreParams more] mid rest' :=
        ⟨rest', moreParams_of_readMoreParams hmore, rfl⟩
      exact inOrder_param_iff.2 ⟨mid, hparam, hrest⟩

/-- Parameters are read to their end when neither a word nor a comma follows. -/
theorem readInnerParams_of_innerParams {ps : List Param} (h : innerParams ps text rest)
    (hword : readParam rest = .ok none) (hcomma : skipComma rest = none) :
    readInnerParams text = .ok (ps, rest) := by
  cases ps with
  | nil =>
    obtain rfl : text = rest := h
    rw [readInnerParams, hword]
  | cons param more =>
    obtain ⟨mid, hparam, hrest⟩ := inOrder_param_iff.1 h
    obtain ⟨_, hmore, rfl⟩ := hrest
    rw [readInnerParams, hparam]
    simp only [readMoreParams_of_moreParams hmore hcomma]

/-- What is read as a list of parameters is one, and it ends at its parenthesis. -/
theorem readParams_eq_ok_iff {ps : List Param} :
    readParams text = .ok (ps, rest) ↔ paramList ps text rest := by
  rw [paramList, inOrder_gap_exactly_iff skips_filler (by decide)]
  constructor
  · intro h
    unfold readParams at h
    split at h
    · rename_i inside hopen
      split at h
      · cases h
      · rename_i ps' mid hinner
        split at h
        · rename_i rest' hclose
          obtain ⟨rfl, rfl⟩ := Prod.mk.inj (Except.ok.inj h)
          have hend : inOrder [Filler, exactly ")"] mid rest' :=
            (inOrder_gap_exactly_iff skips_filler (by decide)).2 ⟨rest', hclose, rfl⟩
          exact ⟨inside, hopen, mid, innerParams_of_readInnerParams hinner, hend⟩
        · cases h
    · cases h
  · rintro ⟨inside, hopen, mid, hparams, hend⟩
    obtain ⟨rest', hclose, rfl⟩ := (inOrder_gap_exactly_iff skips_filler (by decide)).1 hend
    have hopen : skipFiller text = '(' :: inside := hopen
    have hclose : skipFiller mid = ')' :: rest' := hclose
    have hword : readParam mid = .ok none := by
      rw [readParam, hclose]
      rfl
    have hcomma : skipComma mid = none := by
      rw [skipComma, hclose]
      rfl
    have hinner := readInnerParams_of_innerParams hparams hword hcomma
    rw [readParams, hopen]
    simp only [hinner, hclose]

/-! ### Results and tags -/

theorem readReturns_eq_ok_iff {type : String} :
    readReturns text = .ok (type, rest) ↔ resultType type text rest := by
  rw [resultType, inOrder_gap_exactly_iff skips_filler (by decide)]
  simp only [inOrder_gap_word_iff skips_filler]
  constructor
  · intro h
    unfold readReturns at h
    split at h
    · rename_i inside harrow
      split at h
      · rename_i found hword
        obtain rfl := Except.ok.inj h
        exact ⟨inside, harrow, rest, hword, rfl⟩
      · cases h
    · cases h
  · rintro ⟨inside, harrow, _, hword, rfl⟩
    have harrow : skipFiller text = '-' :: '>' :: inside := harrow
    rw [readReturns, harrow]
    simp only [hword]

theorem tag_of_readTag {capability : Capabilities} (h : readTag text = .ok (capability, rest)) :
    tag capability text rest := by
  unfold readTag at h
  split at h
  · rename_i inside hopen
    split at h
    · cases h
    · rename_i name mid hword
      split at h
      · cases h
      · rename_i capability' hname
        split at h
        · rename_i rest' hclose
          obtain ⟨rfl, rfl⟩ := Prod.mk.inj (Except.ok.inj h)
          refine Or.inr ⟨name, hname, ?_⟩
          have hend : inOrder [Spaces, exactly "]"] mid rest' :=
            (inOrder_gap_exactly_iff skips_spaces (by decide)).2 ⟨rest', hclose, rfl⟩
          have hinside := (inOrder_gap_word_iff skips_spaces).2 ⟨mid, hword, hend⟩
          exact (inOrder_gap_exactly_iff skips_spaces (by decide)).2 ⟨inside, hopen, hinside⟩
        · cases h
  · obtain ⟨rfl, rfl⟩ := Prod.mk.inj (Except.ok.inj h)
    exact Or.inl ⟨rfl, rfl⟩

/-- A tag is read when no bracket follows that could begin another one. -/
theorem readTag_of_tag {capability : Capabilities} (h : tag capability text rest)
    (hend : (skipSpaces rest).head? ≠ some '[') : readTag text = .ok (capability, rest) := by
  rcases h with ⟨rfl, rfl⟩ | ⟨name, hname, h⟩
  · unfold readTag
    split
    · rename_i inside hopen
      rw [hopen] at hend
      exact absurd rfl hend
    · rfl
  · obtain ⟨inside, hopen, h⟩ := (inOrder_gap_exactly_iff skips_spaces (by decide)).1 h
    obtain ⟨mid, hword, h⟩ := (inOrder_gap_word_iff skips_spaces).1 h
    obtain ⟨rest', hclose, rfl⟩ := (inOrder_gap_exactly_iff skips_spaces (by decide)).1 h
    have hopen : skipSpaces text = '[' :: inside := hopen
    have hclose : skipSpaces mid = ']' :: rest' := hclose
    rw [readTag, hopen]
    simp only [hword, hname, hclose]

/-! ### Declarations -/

theorem body_of_readBody {d : Declaration} (h : readBody text = .ok (d, rest)) :
    body d text rest := by
  unfold readBody at h
  split at h
  · cases h
  · rename_i name afterName hname
    obtain ⟨⟨params, afterParams⟩, hparams, h⟩ := Result.bind_eq_ok_iff.1 h
    obtain ⟨⟨returns, afterReturns⟩, hreturns, h⟩ := Result.bind_eq_ok_iff.1 h
    obtain ⟨⟨capability, afterTag⟩, htag, h⟩ := Result.bind_eq_ok_iff.1 h
    obtain ⟨rfl, rfl⟩ := Prod.mk.inj (Result.pure_eq_ok_iff.1 h)
    exact (inOrder_gap_word_iff skips_filler).2 ⟨afterName, hname, afterParams,
      readParams_eq_ok_iff.1 hparams, afterReturns, readReturns_eq_ok_iff.1 hreturns, afterTag,
      tag_of_readTag htag, rfl⟩

theorem readBody_of_body {d : Declaration} (h : body d text rest)
    (hend : (skipSpaces rest).head? ≠ some '[') : readBody text = .ok (d, rest) := by
  obtain ⟨afterName, hname, h⟩ := (inOrder_gap_word_iff skips_filler).1 h
  obtain ⟨afterParams, hparams, afterReturns, hreturns, afterTag, htag, rfl⟩ := h
  rw [readBody, hname]
  refine Result.bind_eq_ok_iff.2 ⟨_, readParams_eq_ok_iff.2 hparams, ?_⟩
  refine Result.bind_eq_ok_iff.2 ⟨_, readReturns_eq_ok_iff.2 hreturns, ?_⟩
  exact Result.bind_eq_ok_iff.2 ⟨_, readTag_of_tag htag hend, rfl⟩

theorem declaration_of_readDeclaration {d : Declaration}
    (h : readDeclaration text = .ok (some (d, rest))) : declaration d text rest := by
  unfold readDeclaration at h
  split at h
  · cases h
  · rename_i inside hkeyword
    split at h
    · cases h
    · rename_i found hbody
      obtain rfl := Option.some.inj (Except.ok.inj h)
      exact (inOrder_gap_exactly_iff skips_filler (by decide)).2
        ⟨inside, skipLiteral_eq_some_iff.1 hkeyword, rest, body_of_readBody hbody, rfl⟩

theorem readDeclaration_of_declaration {d : Declaration} (h : declaration d text rest)
    (hend : (skipSpaces rest).head? ≠ some '[') :
    readDeclaration text = .ok (some (d, rest)) := by
  obtain ⟨inside, hkeyword, _, hbody, rfl⟩ :=
    (inOrder_gap_exactly_iff skips_filler (by decide)).1 h
  have hkeyword : skipLiteral keyword (skipFiller text) = some inside :=
    skipLiteral_eq_some_iff.2 hkeyword
  rw [readDeclaration, hkeyword]
  simp only [readBody_of_body hbody hend]

theorem declarations_of_readDeclarations {ds : List Declaration}
    (h : readDeclarations text = .ok (ds, rest)) : inOrder (ds.map declaration) text rest := by
  fun_induction readDeclarations text generalizing ds rest with
  | case1 => cases h
  | case2 =>
    obtain ⟨rfl, rfl⟩ := Prod.mk.inj (Except.ok.inj h)
    rfl
  | case3 => cases h
  | case4 text d mid hread ds' rest' hmore ih =>
    obtain ⟨rfl, rfl⟩ := Prod.mk.inj (Except.ok.inj h)
    exact ⟨mid, declaration_of_readDeclaration hread, ih hmore⟩

theorem skipFiller_eq_of_spaces {mid : List Char} (h : Spaces text mid) :
    skipFiller text = skipFiller mid := by
  induction h with
  | none => rfl
  | space _ ih | tab _ ih => rw [skipFiller, if_pos (by decide), ih]

/-- No tag begins where declarations begin, or where they end. -/
theorem head?_skipSpaces_of_declarations {ds : List Declaration} (h : declarations ds text []) :
    (skipSpaces text).head? ≠ some '[' := by
  intro hbracket
  obtain ⟨inside, hopen⟩ := List.head?_eq_some_iff.1 hbracket
  have hskip : skipFiller text = '[' :: inside := by
    rw [skipFiller_eq_of_spaces (skips_spaces.gap_skip text), hopen]
    exact skips_filler.skip_cons (by decide)
  cases ds with
  | nil =>
    obtain ⟨_, hgap, rfl⟩ := h
    rw [skips_filler.skip_eq_of_gap hgap] at hskip
    simp [skipFiller] at hskip
  | cons d ds =>
    obtain ⟨_, hd, _⟩ := h
    obtain ⟨_, hkeyword, _⟩ := (inOrder_gap_exactly_iff skips_filler (by decide)).1 hd
    rw [hskip] at hkeyword
    have hfirst : '[' = 'p' := (List.cons.inj hkeyword).1
    exact absurd hfirst (by decide)

/-- The declarations of a text are read to its last gap. -/
theorem readDeclarations_of_declarations {ds : List Declaration} (h : declarations ds text []) :
    ∃ rest, readDeclarations text = .ok (ds, rest) ∧ skipFiller rest = [] := by
  induction ds generalizing text with
  | nil =>
    obtain ⟨_, hgap, rfl⟩ := h
    have hskip : skipFiller text = [] := by
      rw [skips_filler.skip_eq_of_gap hgap, skipFiller]
    have hnone : readDeclaration text = .ok none := by
      rw [readDeclaration, hskip]
      rfl
    refine ⟨text, ?_, hskip⟩
    fun_cases readDeclarations text <;> simp_all
  | cons d ds ih =>
    obtain ⟨mid, hd, hds⟩ := h
    obtain ⟨rest, hrest, hskip⟩ := ih hds
    have hread := readDeclaration_of_declaration hd (head?_skipSpaces_of_declarations hds)
    refine ⟨rest, ?_, hskip⟩
    fun_cases readDeclarations text <;> simp_all

theorem readAll_eq_ok_iff {ds : List Declaration} :
    readAll text = .ok ds ↔ declarations ds text [] := by
  constructor
  · intro h
    unfold readAll at h
    split at h
    · cases h
    · rename_i ds' rest hread
      split at h
      · rename_i hskip
        obtain rfl := Except.ok.inj h
        have hgap := skips_filler.gap_skip rest
        rw [hskip] at hgap
        exact inOrder_append.2 ⟨rest, declarations_of_readDeclarations hread, [], hgap, rfl⟩
      · cases h
  · intro h
    obtain ⟨rest, hread, hskip⟩ := readDeclarations_of_declarations h
    rw [readAll, hread]
    simp only [hskip]

/-- **Parsing accepts exactly the grammar.**  A text parses as a list of declarations when it
consists of these declarations, one after another, and a last gap. -/
theorem parse_eq_ok_iff_declarations {text : String} {ds : List Declaration} :
    parse text = .ok ds ↔ declarations ds text.toList [] := by
  rw [parse, Result.mapError_eq_ok_iff, readAll_eq_ok_iff]

-- no gap is needed behind the keyword, and the comment ends with the text
example : (parse "predicatea(state,\t action ) -> bool # why").toOption =
    some [⟨"a", [.state, .action], "bool", .core⟩] := by decide +kernel

end Declaration

end ScoreScript
