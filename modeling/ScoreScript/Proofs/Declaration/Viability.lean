import ScoreScript.Proofs.Declaration.Beginnings

/-!
# Texts that are no declarations

Where reading stops, everything in front still begins some list of declarations, and an error names
that place.

* `begun_of_readBody_error`, `begun_of_readAll_error` — what the readers leave unfinished;
* `ParseError.Marks` — the place in a text that an error names;
* `viable_of_parse_error` — the text in front of that place begins a text that parses.
-/

namespace ScoreScript

namespace Declaration

open Piece

variable {text : List Char} {fault : Fault}

/-! ### What the readers leave unfinished -/

theorem begun_of_readParam_error (h : readParam text = .error fault) :
    Begun (inOrder [Filler, word "state"]) text fault.rest := by
  unfold readParam at h
  split at h
  · cases h
  · split at h
    · cases h
    · obtain rfl := Except.error.inj h
      apply begun_gap separates_filler text "state"
      intro after hafter
      exact ⟨after, ⟨rfl, by decide, hafter⟩, rfl⟩

theorem begun_of_readMoreParams_error (h : readMoreParams text = .error fault) :
    Begun (Any moreParams) text fault.rest := by
  fun_induction readMoreParams text generalizing fault with
  | case1 => cases h
  | case2 text inside hcomma fault' hparam =>
    -- the comma is there, and the word behind it is the first that goes wrong
    obtain rfl := Except.error.inj h
    have hbegun := (begun_of_readParam_error hparam).behind_exactly separates_filler "," (by decide)
      (skipComma_eq_some_iff.1 hcomma)
    exact hbegun.mono fun text rest h => ⟨[.state], rest, h, rfl⟩
  | case3 => cases h
  | case4 text inside hcomma param mid hparam fault' hmore ih =>
    obtain rfl := Except.error.inj h
    have hfirst : moreParams [param] text mid :=
      moreParams_cons_iff.2 ⟨inside, mid, hcomma, hparam, rfl⟩
    have hbegun := ((ih hmore).fill fillable_nil).append (carries_moreParams [param]) hfirst
    refine hbegun.mono ?_
    rintro text rest ⟨mid, h, _, ⟨params, hparams⟩, rfl⟩
    exact ⟨param :: params, mid, h, hparams⟩
  | case5 => cases h

theorem begun_of_readInnerParams_error (h : readInnerParams text = .error fault) :
    Begun (Any innerParams) text fault.rest := by
  unfold readInnerParams at h
  split at h
  · rename_i fault' hparam
    obtain rfl := Except.error.inj h
    refine (begun_of_readParam_error hparam).mono ?_
    rintro text rest ⟨before, hgap, mid, hword, hend⟩
    exact ⟨[.state], before, hgap, mid, hword, rest, hend, rfl⟩
  · cases h
  · rename_i param mid hparam
    split at h
    · rename_i fault' hmore
      obtain rfl := Except.error.inj h
      have hbegun := ((begun_of_readMoreParams_error hmore).fill fillable_nil).behind_word
        separates_filler (readParam_eq_some_iff.1 hparam)
      refine hbegun.mono ?_
      rintro text rest ⟨before, hgap, mid, hword, after, ⟨params, hparams⟩, hend⟩
      exact ⟨param :: params, before, hgap, mid, hword, after, hparams, hend⟩
    · cases h

theorem begun_of_readParams_error (h : readParams text = .error fault) :
    Begun (Any paramList) text fault.rest := by
  unfold readParams at h
  split at h
  · rename_i inside hopen
    split at h
    · rename_i fault' hinner
      obtain rfl := Except.error.inj h
      have hinside := (begun_of_readInnerParams_error hinner).fill fillable_closeParen
      refine (hinside.behind_exactly separates_filler "(" (by decide) hopen).mono ?_
      rintro text rest ⟨before, hgap, inside, hrun, mid, ⟨params, hparams⟩, hend⟩
      exact ⟨params, before, hgap, inside, hrun, mid, hparams, hend⟩
    · rename_i params mid hinner
      split at h
      · cases h
      · obtain rfl := Except.error.inj h
        have hclose : Begun (inOrder [Filler, exactly ")"]) mid (skipFiller mid) :=
          begun_gap separates_filler mid ")" fun after _ => ⟨after, rfl, rfl⟩
        have hinside := hclose.cons (carries_innerParams params)
          (innerParams_of_readInnerParams hinner)
        exact (hinside.behind_exactly separates_filler "(" (by decide) hopen).mono
          fun _ _ h => ⟨params, h⟩
  · obtain rfl := Except.error.inj h
    have hbegun : Begun (paramList []) text (skipFiller text) := by
      apply begun_gap separates_filler text "()"
      intro after _
      exact ⟨')' :: after, rfl, ')' :: after, rfl, ')' :: after, .none _, after, rfl, rfl⟩
    exact hbegun.mono fun _ _ h => ⟨[], h⟩

theorem begun_of_readReturns_error (h : readReturns text = .error fault) :
    Begun (resultType "a") text fault.rest := by
  unfold readReturns at h
  split at h
  · rename_i inside harrow
    split at h
    · cases h
    · obtain rfl := Except.error.inj h
      have hword : Begun (inOrder [Filler, word "a"]) inside (skipFiller inside) :=
        begun_gap separates_filler inside "a" fun after hafter =>
          ⟨after, ⟨rfl, by decide, hafter⟩, rfl⟩
      exact hword.behind_exactly separates_filler "->" (by decide) harrow
  · obtain rfl := Except.error.inj h
    apply begun_gap separates_filler text "->a"
    intro after hafter
    exact ⟨'a' :: after, rfl, 'a' :: after, .none _, after, ⟨rfl, by decide, hafter⟩, rfl⟩

theorem begun_of_readTag_error (h : readTag text = .error fault) :
    Begun (Any tag) text fault.rest := by
  unfold readTag at h
  split at h
  · rename_i inside hopen
    -- no word, or one that names no capability: both leave the place of the name
    have hplace : Begun (inOrder [Spaces, word "core", Spaces, exactly "]"]) inside
        (skipSpaces inside) := by
      apply begun_gap separates_spaces inside "core]"
      intro after _
      exact ⟨']' :: after, ⟨rfl, by decide, rfl⟩, ']' :: after, .none _, after, rfl, rfl⟩
    have hname : Begun (Any tag) text (skipSpaces inside) :=
      (hplace.behind_exactly separates_spaces "[" (by decide) hopen).mono fun _ _ h =>
        ⟨.core, .inr ⟨"core", rfl, h⟩⟩
    split at h
    · obtain rfl := Except.error.inj h
      exact hname
    · rename_i name mid hword
      split at h
      · obtain rfl := Except.error.inj h
        exact hname
      · rename_i capability hcapability
        split at h
        · cases h
        · obtain rfl := Except.error.inj h
          have hclose : Begun (inOrder [Spaces, exactly "]"]) mid (skipSpaces mid) :=
            begun_gap separates_spaces mid "]" fun after _ => ⟨after, rfl, rfl⟩
          have hinside := hclose.behind_word separates_spaces hword
          exact (hinside.behind_exactly separates_spaces "[" (by decide) hopen).mono
            fun _ _ h => ⟨capability, .inr ⟨name, hcapability, h⟩⟩
  · cases h

theorem begun_of_readBody_error (h : readBody text = .error fault) :
    Begun (Any body) text fault.rest := by
  unfold readBody at h
  split at h
  · obtain rfl := Except.error.inj h
    have hbegun : Begun (body ⟨"a", [], "a", .core⟩) text (skipFiller text) := by
      apply begun_gap separates_filler text "a()->a"
      intro after hafter
      refine ⟨"()->a".toList ++ after, ⟨rfl, by decide, rfl⟩, "->a".toList ++ after, ?_,
        inOrder_resultType_tag hafter⟩
      exact ⟨_, .none _, ')' :: ("->a".toList ++ after), rfl, _, rfl, _, .none _, _, rfl, rfl⟩
    exact hbegun.mono fun _ _ h => ⟨_, h⟩
  · rename_i name afterName hname
    rcases Result.bind_eq_error_iff.1 h with hparams | ⟨⟨params, afterParams⟩, hparams, h⟩
    · have hbegun := ((begun_of_readParams_error hparams).fill fillable_resultType_tag).behind_word
        separates_filler hname
      refine hbegun.mono ?_
      rintro text rest ⟨before, hgap, mid, hword, afterParams, ⟨params, hparams⟩, hend⟩
      exact ⟨⟨name, params, "a", .core⟩, before, hgap, mid, hword, afterParams, hparams, hend⟩
    have hparams := readParams_eq_ok_iff.1 hparams
    rcases Result.bind_eq_error_iff.1 h with hreturns | ⟨⟨returns, afterReturns⟩, hreturns, h⟩
    · have hinside := ((begun_of_readReturns_error hreturns).fill fillable_tag).cons
        (carries_paramList params) hparams
      exact (hinside.behind_word separates_filler hname).mono fun _ _ h =>
        ⟨⟨name, params, "a", .core⟩, h⟩
    have hreturns := readReturns_eq_ok_iff.1 hreturns
    rcases Result.bind_eq_error_iff.1 h with htag | ⟨_, _, h⟩
    · have hinside := (((begun_of_readTag_error htag).fill fillable_nil).cons
        (carries_resultType returns) hreturns).cons (carries_paramList params) hparams
      refine (hinside.behind_word separates_filler hname).mono ?_
      rintro text rest ⟨before, hgap, m₁, hword, m₂, hparams, m₃, hreturns, m₄, ⟨c, htag⟩, hend⟩
      exact ⟨⟨name, params, returns, c⟩, before, hgap, m₁, hword, m₂, hparams, m₃, hreturns, m₄,
        htag, hend⟩
    · cases h

theorem begun_of_readDeclaration_error (h : readDeclaration text = .error fault) :
    Begun (Any declaration) text fault.rest := by
  unfold readDeclaration at h
  split at h
  · cases h
  · rename_i inside hkeyword
    split at h
    · rename_i fault' hbody
      obtain rfl := Except.error.inj h
      have hbegun := ((begun_of_readBody_error hbody).fill fillable_nil).behind_exactly
        separates_filler "predicate" (by decide) (skipLiteral_eq_some_iff.1 hkeyword)
      refine hbegun.mono ?_
      rintro text rest ⟨before, hgap, inside, hkey, after, ⟨d, hbody⟩, hend⟩
      exact ⟨d, before, hgap, inside, hkey, after, hbody, hend⟩
    · cases h

theorem begun_of_readDeclarations_error (h : readDeclarations text = .error fault) :
    Begun (Any fun ds : List Declaration => inOrder (ds.map declaration)) text fault.rest := by
  fun_induction readDeclarations text generalizing fault with
  | case1 text fault' hread =>
    obtain rfl := Except.error.inj h
    refine (begun_of_readDeclaration_error hread).mono ?_
    rintro text rest ⟨d, hd⟩
    exact ⟨[d], rest, hd, rfl⟩
  | case2 => cases h
  | case3 text d mid hread fault' hmore ih =>
    obtain rfl := Except.error.inj h
    have hbegun := ((ih hmore).fill fillable_nil).cons (carries_declaration d)
      (declaration_of_readDeclaration hread)
    refine hbegun.mono ?_
    rintro text rest ⟨mid, hd, _, ⟨ds, hds⟩, rfl⟩
    exact ⟨d :: ds, mid, hd, hds⟩
  | case4 => cases h

theorem begun_of_readAll_error (h : readAll text = .error fault) :
    Begun (Any declarations) text fault.rest := by
  unfold readAll at h
  split at h
  · rename_i fault' hread
    obtain rfl := Except.error.inj h
    refine ((begun_of_readDeclarations_error hread).fill fillable_filler).mono ?_
    rintro text rest ⟨mid, ⟨ds, hds⟩, hend⟩
    exact ⟨ds, inOrder_append.2 ⟨mid, hds, hend⟩⟩
  · rename_i ds mid hread
    split at h
    · cases h
    · obtain rfl := Except.error.inj h
      have hend : Begun (inOrder [Filler]) mid (skipFiller mid) :=
        begun_gap separates_filler mid "" fun after _ => rfl
      have hbegun := hend.append (carries_declarations ds) (declarations_of_readDeclarations hread)
      exact hbegun.mono fun _ _ h => ⟨ds, h⟩

end Declaration

/-! ### Errors and their places -/

/-- The error names the place at the end of `before`: its line feeds, and the characters behind the
last of them, both counted from one. -/
structure ParseError.Marks (e : ParseError) (before : List Char) : Prop where
  line_eq : e.line = 1 + before.count '\n'
  column_eq : ∃ lines last, before = lines ++ last ∧ (lines = [] ∨ lines.getLast? = some '\n') ∧
    '\n' ∉ last ∧ e.column = 1 + last.length

theorem ParseError.marks_after (before : List Char) (expected : List Expectation) :
    (ParseError.after before expected).Marks before where
  line_eq := Nat.add_comm _ _
  column_eq := by
    refine ⟨(before.reverse.dropWhile (· != '\n')).reverse,
      (before.reverse.takeWhile (· != '\n')).reverse, ?_, ?_, ?_, ?_⟩
    · rw [← List.reverse_append, List.takeWhile_append_dropWhile, List.reverse_reverse]
    · have hhead := List.head?_dropWhile_not (· != '\n') before.reverse
      cases hrest : before.reverse.dropWhile (· != '\n') with
      | nil => exact .inl rfl
      | cons c cs =>
        rw [hrest] at hhead
        exact .inr (by simpa using hhead)
    · intro hlast
      have hc := List.all_eq_true.1 List.all_takeWhile _ (List.mem_reverse.1 hlast)
      exact absurd hc (by decide)
    · rw [List.length_reverse]
      exact Nat.add_comm _ _

/-- **Errors never point past the fault.**  The place that the error of a text names lies in the
text, and what the text has in front of it begins some text that parses. -/
theorem Declaration.viable_of_parse_error {text : String} {e : ParseError}
    (h : parse text = .error e) :
    ∃ o ≤ text.toList.length, e.Marks (text.toList.take o) ∧
      ∃ more ds, parse (String.ofList (text.toList.take o ++ more)) = .ok ds := by
  obtain ⟨fault, hfault, rfl⟩ := Result.mapError_eq_error_iff.1 h
  obtain ⟨before, more, htext, hmore⟩ := begun_of_readAll_error hfault
  obtain ⟨_, ds, hds⟩ := hmore [] rfl
  have hlength : text.toList.length - fault.rest.length = before.length := by
    rw [htext, List.length_append, Nat.add_sub_cancel]
  have htake : text.toList.take before.length = before := by
    rw [htext, List.take_left]
  refine ⟨before.length, ?_, ?_, more, ds, ?_⟩
  · rw [htext, List.length_append]
    exact Nat.le_add_right _ _
  · rw [Fault.toParseError, hlength, htake]
    exact ParseError.marks_after before fault.expected
  · rw [htake, parse, Result.mapError_eq_ok_iff, readAll_eq_ok_iff, String.toList_ofList]
    rwa [List.append_nil] at hds

/-- A comment with its line, and a declaration without its arrow. -/
def Declaration.missingArrow : String :=
  "# é\r\npredicate a(state)\tbool"

/-- The error names the place of the arrow, behind nineteen characters of the second line. -/
theorem Declaration.viable_of_missing_arrow :
    parse missingArrow = .error ⟨[.arrow], 2, 20⟩ ∧
      ∃ o ≤ missingArrow.toList.length,
        (⟨[.arrow], 2, 20⟩ : ParseError).Marks (missingArrow.toList.take o) ∧
          ∃ more ds, parse (String.ofList (missingArrow.toList.take o ++ more)) = .ok ds := by
  have h : parse missingArrow = .error ⟨[.arrow], 2, 20⟩ := by decide +kernel
  exact ⟨h, viable_of_parse_error h⟩

end ScoreScript
