import ScoreScript.Declaration.Basic

/-!
# Reading declarations

A text of declarations is a sequence of pieces such as

    predicate base_stat(state, BaseStatCategory) -> StatValue [auto_statcheck]

with blanks and comments between the words, and blanks and comments after the last piece.  A
comment runs from `#` to the end of its line.  Every reader takes the characters that are left and
gives back what it found with the characters after it.

* `skipFiller` — the text after blanks and comments;
* `readDeclaration` — one piece, or nothing when the next word is not `predicate`;
* `Declaration.parse` — a whole text;
* `readDeclaration_length` — a piece takes at least one character, so reading pieces comes to an
  end.
-/

namespace ScoreScript

namespace Declaration

/-- Where reading stopped: the expectations, innermost first, and the characters that were left. -/
structure Fault where
  expected : List Expectation
  rest : List Char
  deriving DecidableEq

/-! ### Blanks and comments -/

/-- The blank characters between words. -/
def isBlank (c : Char) : Bool :=
  c == ' ' || c == '\t' || c == '\n' || c == '\r' || c == '\x0c'

/-- The characters that end a comment. -/
def isLineEnd (c : Char) : Bool :=
  c == '\n' || c == '\r'

/-- A line ends at the end of the text, at a line feed, and at a carriage return that a line feed
follows. -/
def atLineEnd : List Char → Bool
  | [] => true
  | '\n' :: _ => true
  | '\r' :: '\n' :: _ => true
  | _ => false

theorem length_dropWhile_le {α : Type} (p : α → Bool) (xs : List α) :
    (xs.dropWhile p).length ≤ xs.length :=
  (List.dropWhile_sublist p).length_le

/-- The text after all blanks and comments at its front.  A `#` whose line does not end properly
begins no comment. -/
def skipFiller (text : List Char) : List Char :=
  match text with
  | [] => []
  | c :: rest =>
    if isBlank c then skipFiller rest
    else if c = '#' ∧ atLineEnd (rest.dropWhile (!isLineEnd ·)) then
      skipFiller (rest.dropWhile (!isLineEnd ·))
    else c :: rest
termination_by text.length
decreasing_by
  · exact Nat.lt_succ_self _
  · exact Nat.lt_succ_of_le (length_dropWhile_le _ _)

theorem skipFiller_length_le (text : List Char) : (skipFiller text).length ≤ text.length := by
  fun_induction skipFiller text with
  | case1 => exact Nat.le_refl _
  | case2 c rest _ ih => exact Nat.le_succ_of_le ih
  | case3 c rest _ _ ih =>
    exact Nat.le_succ_of_le (Nat.le_trans ih (length_dropWhile_le _ _))
  | case4 => exact Nat.le_refl _

/-- The text after the spaces and tabs at its front. -/
def skipSpaces (text : List Char) : List Char :=
  text.dropWhile fun c => c == ' ' || c == '\t'

theorem skipSpaces_length_le (text : List Char) : (skipSpaces text).length ≤ text.length :=
  length_dropWhile_le _ _

/-! ### Words -/

/-- A word begins with an ASCII letter or an underscore. -/
def isWordStart (c : Char) : Bool :=
  c.isAlpha || c == '_'

/-- A word goes on with ASCII letters, digits and underscores. -/
def isWordPart (c : Char) : Bool :=
  c.isAlphanum || c == '_'

/-- The longest word at the front of the text. -/
def readWord : List Char → Option (String × List Char)
  | [] => none
  | c :: rest =>
    if isWordStart c then
      some (String.ofList (c :: rest.takeWhile isWordPart), rest.dropWhile isWordPart)
    else none

theorem readWord_length {text rest : List Char} {word : String}
    (h : readWord text = some (word, rest)) : rest.length < text.length := by
  cases text with
  | nil => simp [readWord] at h
  | cons c tail =>
    simp only [readWord] at h
    split at h
    · simp only [Option.some.injEq, Prod.mk.injEq] at h
      rw [← h.2]
      exact Nat.lt_succ_of_le (length_dropWhile_le _ _)
    · exact absurd h (by simp)

/-! ### Parameters -/

/-- A parameter, or nothing when no word follows. -/
def readParam (text : List Char) : Except Fault (Option (Param × List Char)) :=
  match readWord (skipFiller text) with
  | none => .ok none
  | some (word, rest) =>
    match Param.ofText? word with
    | some param => .ok (some (param, rest))
    | none => .error ⟨[.parameter, .parameterList], skipFiller text⟩

theorem readParam_length {text rest : List Char} {param : Param}
    (h : readParam text = .ok (some (param, rest))) : rest.length < text.length := by
  unfold readParam at h
  split at h
  · exact absurd h (by simp)
  · rename_i word rest' hword
    split at h
    · simp only [Except.ok.injEq, Option.some.injEq, Prod.mk.injEq] at h
      rw [← h.2]
      exact Nat.lt_of_lt_of_le (readWord_length hword) (skipFiller_length_le text)
    · exact absurd h (by simp)

/-- The text after the next comma, or nothing when no comma follows. -/
def skipComma (text : List Char) : Option (List Char) :=
  match skipFiller text with
  | ',' :: rest => some rest
  | _ => none

theorem skipComma_length {text rest : List Char} (h : skipComma text = some rest) :
    rest.length < text.length := by
  have hle := skipFiller_length_le text
  unfold skipComma at h
  split at h
  · rename_i tail htail
    simp only [Option.some.injEq] at h
    rw [htail, List.length_cons, h] at hle
    exact hle
  · exact absurd h (by simp)

/-- The parameters after the first, each behind a comma.  A comma that no word follows is left in
the text. -/
def readMoreParams (text : List Char) : Except Fault (List Param × List Char) :=
  match _hcomma : skipComma text with
  | none => .ok ([], text)
  | some inside =>
    match _hparam : readParam inside with
    | .error fault => .error fault
    | .ok none => .ok ([], text)
    | .ok (some (param, rest)) =>
      match readMoreParams rest with
      | .error fault => .error fault
      | .ok (params, rest) => .ok (param :: params, rest)
termination_by text.length
decreasing_by exact Nat.lt_trans (readParam_length _hparam) (skipComma_length _hcomma)

theorem readMoreParams_length {text rest : List Char} {params : List Param}
    (h : readMoreParams text = .ok (params, rest)) : rest.length ≤ text.length := by
  fun_induction readMoreParams text generalizing params rest with
  | case1 =>
    simp only [Except.ok.injEq, Prod.mk.injEq] at h
    exact h.2 ▸ Nat.le_refl _
  | case2 => exact absurd h (by simp)
  | case3 =>
    simp only [Except.ok.injEq, Prod.mk.injEq] at h
    exact h.2 ▸ Nat.le_refl _
  | case4 => exact absurd h (by simp)
  | case5 text inside hcomma param mid hparam params' rest' hmore ih =>
    simp only [Except.ok.injEq, Prod.mk.injEq] at h
    have hmid := ih hmore
    have := readParam_length hparam
    have := skipComma_length hcomma
    rw [← h.2]
    omega

/-- The parameters inside the parentheses. -/
def readInnerParams (text : List Char) : Except Fault (List Param × List Char) :=
  match readParam text with
  | .error fault => .error fault
  | .ok none => .ok ([], text)
  | .ok (some (param, rest)) =>
    match readMoreParams rest with
    | .error fault => .error fault
    | .ok (params, rest) => .ok (param :: params, rest)

theorem readInnerParams_length {text rest : List Char} {params : List Param}
    (h : readInnerParams text = .ok (params, rest)) : rest.length ≤ text.length := by
  unfold readInnerParams at h
  split at h
  · exact absurd h (by simp)
  · simp only [Except.ok.injEq, Prod.mk.injEq] at h
    exact h.2 ▸ Nat.le_refl _
  · rename_i param mid hparam
    split at h
    · exact absurd h (by simp)
    · rename_i params' rest' hmore
      simp only [Except.ok.injEq, Prod.mk.injEq] at h
      have := readMoreParams_length hmore
      have := readParam_length hparam
      rw [← h.2]
      omega

/-- A parameter list in its parentheses. -/
def readParams (text : List Char) : Except Fault (List Param × List Char) :=
  match skipFiller text with
  | '(' :: inside =>
    match readInnerParams inside with
    | .error fault => .error fault
    | .ok (params, rest) =>
      match skipFiller rest with
      | ')' :: rest => .ok (params, rest)
      | rest => .error ⟨[.closeParen, .parameterList], rest⟩
  | rest => .error ⟨[.parameterList], rest⟩

theorem readParams_length {text rest : List Char} {params : List Param}
    (h : readParams text = .ok (params, rest)) : rest.length ≤ text.length := by
  have hle := skipFiller_length_le text
  unfold readParams at h
  split at h
  · rename_i inside hopen
    rw [hopen, List.length_cons] at hle
    split at h
    · exact absurd h (by simp)
    · rename_i params' mid hinner
      have hmid := readInnerParams_length hinner
      have hclose := skipFiller_length_le mid
      split at h
      · rename_i rest' hrest
        rw [hrest, List.length_cons] at hclose
        simp only [Except.ok.injEq, Prod.mk.injEq] at h
        rw [← h.2]
        omega
      · exact absurd h (by simp)
  · exact absurd h (by simp)

/-! ### Return types and tags -/

/-- The arrow and the word after it. -/
def readReturns (text : List Char) : Except Fault (String × List Char) :=
  match skipFiller text with
  | '-' :: '>' :: rest =>
    match readWord (skipFiller rest) with
    | some found => .ok found
    | none => .error ⟨[.returnType], skipFiller rest⟩
  | rest => .error ⟨[.arrow], rest⟩

theorem readReturns_length {text rest : List Char} {returns : String}
    (h : readReturns text = .ok (returns, rest)) : rest.length ≤ text.length := by
  have hle := skipFiller_length_le text
  unfold readReturns at h
  split at h
  · rename_i tail harrow
    rw [harrow, List.length_cons, List.length_cons] at hle
    split at h
    · rename_i found hword
      simp only [Except.ok.injEq] at h
      subst h
      have := readWord_length hword
      have := skipFiller_length_le tail
      omega
    · exact absurd h (by simp)
  · exact absurd h (by simp)

/-- The capability tag in its brackets.  Without a bracket on the same line the capability is the
default. -/
def readTag (text : List Char) : Except Fault (Capabilities × List Char) :=
  match skipSpaces text with
  | '[' :: inside =>
    match readWord (skipSpaces inside) with
    | none => .error ⟨[.capabilityName], skipSpaces inside⟩
    | some (word, rest) =>
      match Capabilities.ofTag? word with
      | none => .error ⟨[.capabilityName], skipSpaces inside⟩
      | some capability =>
        match skipSpaces rest with
        | ']' :: rest => .ok (capability, rest)
        | rest => .error ⟨[.closeBracket], rest⟩
  | _ => .ok (.core, text)

theorem readTag_length {text rest : List Char} {capability : Capabilities}
    (h : readTag text = .ok (capability, rest)) : rest.length ≤ text.length := by
  have hle := skipSpaces_length_le text
  unfold readTag at h
  split at h
  · rename_i inside hopen
    rw [hopen, List.length_cons] at hle
    have hin := skipSpaces_length_le inside
    split at h
    · exact absurd h (by simp)
    · rename_i word mid hword
      have hmid := readWord_length hword
      split at h
      · exact absurd h (by simp)
      · have hclose := skipSpaces_length_le mid
        split at h
        · rename_i rest' hrest
          rw [hrest, List.length_cons] at hclose
          simp only [Except.ok.injEq, Prod.mk.injEq] at h
          rw [← h.2]
          omega
        · exact absurd h (by simp)
  · simp only [Except.ok.injEq, Prod.mk.injEq] at h
    exact h.2 ▸ Nat.le_refl _

/-! ### Declarations -/

/-- The word that begins a declaration. -/
def keyword : List Char := "predicate".toList

/-- The text after a fixed run of characters at its front. -/
def skipLiteral : List Char → List Char → Option (List Char)
  | [], text => some text
  | _ :: _, [] => none
  | c :: literal, d :: text => if c = d then skipLiteral literal text else none

theorem skipLiteral_eq_some_iff {literal text rest : List Char} :
    skipLiteral literal text = some rest ↔ text = literal ++ rest := by
  induction literal generalizing text with
  | nil => simp [skipLiteral]
  | cons c literal ih =>
    cases text with
    | nil => simp [skipLiteral]
    | cons d text =>
      by_cases hcd : c = d
      · subst hcd
        simp [skipLiteral, ih]
      · have hdc : ¬ d = c := fun h => hcd h.symm
        simp [skipLiteral, hcd, hdc]

/-- The name of a declaration and all that follows it. -/
def readBody (text : List Char) : Except Fault (Declaration × List Char) := do
  match readWord (skipFiller text) with
  | none => .error ⟨[.predicateName], skipFiller text⟩
  | some (name, rest) =>
    let (params, rest) ← readParams rest
    let (returns, rest) ← readReturns rest
    let (capability, rest) ← readTag rest
    return (⟨name, params, returns, capability⟩, rest)

theorem readBody_length {text rest : List Char} {d : Declaration}
    (h : readBody text = .ok (d, rest)) : rest.length < text.length := by
  have hle := skipFiller_length_le text
  unfold readBody at h
  split at h
  · exact absurd h (by simp)
  · rename_i name r₁ hname
    have h₁ := readWord_length hname
    cases hparams : readParams r₁ with
    | error fault => rw [hparams] at h; exact absurd h (by simp [bind, Except.bind])
    | ok found =>
      obtain ⟨params, r₂⟩ := found
      have h₂ := readParams_length hparams
      rw [hparams] at h
      simp only [bind, Except.bind] at h
      cases hreturns : readReturns r₂ with
      | error fault => rw [hreturns] at h; exact absurd h (by simp)
      | ok found =>
        obtain ⟨returns, r₃⟩ := found
        have h₃ := readReturns_length hreturns
        rw [hreturns] at h
        simp only at h
        cases htag : readTag r₃ with
        | error fault => rw [htag] at h; exact absurd h (by simp)
        | ok found =>
          obtain ⟨capability, r₄⟩ := found
          have h₄ := readTag_length htag
          rw [htag] at h
          simp only [pure, Except.pure, Except.ok.injEq, Prod.mk.injEq] at h
          rw [← h.2]
          omega

/-- A declaration, or nothing when its keyword does not follow. -/
def readDeclaration (text : List Char) : Except Fault (Option (Declaration × List Char)) :=
  match skipLiteral keyword (skipFiller text) with
  | none => .ok none
  | some rest =>
    match readBody rest with
    | .error fault => .error fault
    | .ok found => .ok (some found)

theorem readDeclaration_length {text rest : List Char} {d : Declaration}
    (h : readDeclaration text = .ok (some (d, rest))) : rest.length < text.length := by
  have hle := skipFiller_length_le text
  unfold readDeclaration at h
  split at h
  · exact absurd h (by simp)
  · rename_i tail hkey
    have htail : tail.length ≤ (skipFiller text).length := by
      rw [skipLiteral_eq_some_iff.1 hkey, List.length_append]
      exact Nat.le_add_left _ _
    split at h
    · exact absurd h (by simp)
    · rename_i found hbody
      simp only [Except.ok.injEq, Option.some.injEq] at h
      subst h
      have := readBody_length hbody
      omega

/-- As many declarations as follow one another. -/
def readDeclarations (text : List Char) : Except Fault (List Declaration × List Char) :=
  match _hread : readDeclaration text with
  | .error fault => .error fault
  | .ok none => .ok ([], text)
  | .ok (some (d, rest)) =>
    match readDeclarations rest with
    | .error fault => .error fault
    | .ok (ds, rest) => .ok (d :: ds, rest)
termination_by text.length
decreasing_by exact readDeclaration_length _hread

/-- The declarations that make up a text, with nothing but blanks and comments after the last. -/
def readAll (text : List Char) : Except Fault (List Declaration) :=
  match readDeclarations text with
  | .error fault => .error fault
  | .ok (ds, rest) =>
    match skipFiller rest with
    | [] => .ok ds
    | rest => .error ⟨[], rest⟩

/-- The error that a fault in a text amounts to. -/
def Fault.toParseError (text : List Char) (fault : Fault) : ParseError :=
  .after (text.take (text.length - fault.rest.length)) fault.expected

/-- The declarations of a text. -/
def parse (text : String) : Except ParseError (List Declaration) :=
  (readAll text.toList).mapError (Fault.toParseError text.toList)

end Declaration

end ScoreScript
