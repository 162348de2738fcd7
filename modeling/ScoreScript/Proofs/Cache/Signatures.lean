import Mathlib.Data.List.Basic
import ScoreScript.Cache.Payload
import ScoreScript.Proofs.Script.Texts

/-!
# Texts of catalogs

The text of a catalog has one line for each predicate: its signature.  Names are whatever text they
were registered under, so a name may begin with a whole line of another predicate.  The line of such
a predicate reads as two lines.  Names that do not begin with a line leave only one way to read the
text.

* `Predicate.line_injective` — a line determines its predicate, whatever the name;
* `Predicate.StartsWithLine` — the name begins with a line;
* `catalogText_injective` — without such names the text determines the catalog;
* `Predicate.StartsWithLine.exists_split` — with such a name there is another catalog of that text.
-/

namespace ScoreScript

/-! ### Parameters -/

namespace Param

/-- The signs of a signature around and between parameters, and the end of a line. -/
def isMark (c : Char) : Bool :=
  c == '(' || c == ')' || c == ',' || c == '\n'

theorem isMark_text (p : Param) : p.text.toList.any isMark = false := by
  cases p with
  | state => decide
  | action => decide
  | choice kind => cases kind <;> decide

theorem text_injective {p q : Param} (h : p.text = q.text) : p = q := by
  have hfound := congrArg ofText? h
  rw [ofText?_text, ofText?_text] at hfound
  exact Option.some.inj hfound

theorem text_ne_empty (p : Param) : p.text ≠ "" := by
  cases p with
  | state => decide
  | action => decide
  | choice kind => cases kind <;> decide

/-- Behind a parameter there is a comma, if anything. -/
theorem head?_join (ps : List Param) :
    (String.join ((ps.map text).map (", " ++ ·))).toList.head?.all isMark = true := by
  cases ps with
  | nil => rfl
  | cons p rest =>
    rw [List.map_cons, List.map_cons, String.join_cons, String.append_assoc]
    exact head?_append_all (by decide) _

theorem join_injective {ps qs : List Param}
    (h : String.join ((ps.map text).map (", " ++ ·)) =
      String.join ((qs.map text).map (", " ++ ·))) : ps = qs := by
  have hne : ∀ (p : Param) (rest : List Param),
      String.join (((p :: rest).map text).map (", " ++ ·)) ≠ "" := by
    intro p rest hempty
    rw [List.map_cons, List.map_cons, String.join_cons, String.append_assoc] at hempty
    exact absurd (congrArg (fun s => s.toList.head?) hempty) (by simp)
  induction ps generalizing qs with
  | nil =>
    cases qs with
    | nil => rfl
    | cons q qs => exact absurd h.symm (hne q qs)
  | cons p ps ih =>
    cases qs with
    | nil => exact absurd h (hne p ps)
    | cons q qs =>
      simp only [List.map_cons, String.join_cons, String.append_assoc, String.append_right_inj] at h
      obtain ⟨htext, hrest⟩ :=
        append_inj_of_stop p.isMark_text q.isMark_text (head?_join ps) (head?_join qs) h
      rw [text_injective htext, ih hrest]

/-- The list of parameters is found again in its text. -/
theorem intercalate_injective {ps qs : List Param}
    (h : ", ".intercalate (ps.map text) = ", ".intercalate (qs.map text)) : ps = qs := by
  have hne : ∀ (p : Param) (rest : List Param), ", ".intercalate ((p :: rest).map text) ≠ "" := by
    intro p rest hempty
    cases rest with
    | nil => exact p.text_ne_empty hempty
    | cons q rest =>
      rw [List.map_cons, List.map_cons, String.intercalate_cons_cons, String.append_assoc] at hempty
      exact p.text_ne_empty (String.append_eq_empty_iff.1 hempty).1
  cases ps with
  | nil =>
    cases qs with
    | nil => rfl
    | cons q qs => exact absurd h.symm (hne q qs)
  | cons p ps =>
    cases qs with
    | nil => exact absurd h (hne p ps)
    | cons q qs =>
      have htexts : ∀ (p : Param) (rest : List Param), (p :: rest).map text ≠ [] :=
        fun _ _ => List.cons_ne_nil _ _
      apply join_injective
      rw [join_map_append (htexts p ps), join_map_append (htexts q qs), h]

end Param

theorem Kind.typeName_injective {j k : Kind} (h : j.typeName = k.typeName) : j = k := by
  have hfound := congrArg ofTypeName? h
  rw [ofTypeName?_typeName, ofTypeName?_typeName] at hfound
  exact Option.some.inj hfound

/-! ### Lines -/

/-- The last occurrence of a sign splits a text. -/
theorem append_cons_inj_of_not_mem {a : Char} {x y s t : List Char} (hs : a ∉ s) (ht : a ∉ t)
    (h : x ++ a :: s = y ++ a :: t) : x = y ∧ s = t := by
  have hbehind : ∀ {z s t : List Char}, a ∉ s → a :: s = z ++ a :: t → z = [] := by
    intro z s t hs h
    cases z with
    | nil => rfl
    | cons b z =>
      obtain ⟨_, rfl⟩ := List.cons.inj h
      exact absurd (List.mem_append_right z List.mem_cons_self) hs
  rcases List.append_eq_append_iff.1 h with ⟨z, rfl, hz⟩ | ⟨z, rfl, hz⟩
  · obtain rfl := hbehind hs hz
    exact ⟨(List.append_nil x).symm, (List.cons.inj hz).2⟩
  · obtain rfl := hbehind ht hz
    exact ⟨List.append_nil y, (List.cons.inj hz).2.symm⟩

namespace Predicate

/-- The line of a predicate in the text of its catalog. -/
def line (p : Predicate) : String :=
  p.signature ++ "\n"

/-- The parameters as they stand in a line. -/
def paramText (p : Predicate) : String :=
  ", ".intercalate (p.params.map Param.text)

/-- What a line shows behind the parameters, but for its end. -/
def resultText (p : Predicate) : String :=
  " -> " ++ p.returns.typeName

theorem toList_line (p : Predicate) :
    p.line.toList = p.name.toList ++
      '(' :: (p.paramText.toList ++ ')' :: p.resultText.toList) ++ ['\n'] := by
  have hopen : "(".toList = ['('] := by decide
  have hclose : ") -> ".toList = ')' :: " -> ".toList := by decide
  have hbreak : "\n".toList = ['\n'] := by decide
  simp only [line, signature, paramText, resultText, String.toList_append, List.append_assoc, hopen,
    hclose, hbreak, List.cons_append, List.nil_append]

theorem not_mem_paramText {c : Char} (hc : Param.isMark c = true) (hcomma : c ≠ ',')
    (ps : List Param) : c ∉ (", ".intercalate (ps.map Param.text)).toList := by
  have htext : ∀ p : Param, c ∉ p.text.toList := by
    intro p hmem
    have hnone := p.isMark_text
    rw [List.any_eq_false] at hnone
    exact hnone c hmem hc
  have hseparator : c ∉ ", ".toList := by
    intro hmem
    rcases List.mem_cons.1 hmem with rfl | hmem
    · exact hcomma rfl
    · rcases List.mem_singleton.1 hmem with rfl
      exact absurd hc (by decide)
  induction ps with
  | nil => exact List.not_mem_nil
  | cons p rest ih =>
    cases rest with
    | nil =>
      rw [List.map_cons, List.map_nil, String.intercalate_singleton]
      exact htext p
    | cons q rest =>
      rw [List.map_cons, List.map_cons, String.intercalate_cons_cons, String.toList_append,
        String.toList_append, List.mem_append, List.mem_append]
      rintro ((hmem | hmem) | hmem)
      · exact htext p hmem
      · exact hseparator hmem
      · exact ih hmem

/-- No sign stands behind the closing parenthesis. -/
theorem not_mem_resultText {c : Char} (hc : Param.isMark c = true) (p : Predicate) :
    c ∉ p.resultText.toList := by
  intro hmem
  have hnone : p.resultText.toList.any Param.isMark = false := by
    rw [resultText]
    cases p.returns <;> decide
  rw [List.any_eq_false] at hnone
  exact hnone c hmem hc

/-- Neither an opening parenthesis nor the end of the line stands within what follows the name. -/
theorem not_mem_details {c : Char} (hc : Param.isMark c = true) (hcomma : c ≠ ',')
    (hclose : c ≠ ')') (p : Predicate) : c ∉ p.paramText.toList ++ ')' :: p.resultText.toList := by
  rw [List.mem_append, List.mem_cons]
  rintro (hmem | hmem | hmem)
  · exact not_mem_paramText hc hcomma p.params hmem
  · exact hclose hmem
  · exact not_mem_resultText hc p hmem

/-- A line determines its predicate, whatever the name. -/
theorem line_injective {p q : Predicate} (h : p.line = q.line) : p = q := by
  have hchars := congrArg String.toList h
  rw [toList_line, toList_line, List.append_left_inj] at hchars
  obtain ⟨hname, hdetails⟩ := append_cons_inj_of_not_mem
    (not_mem_details rfl (by decide) (by decide) p) (not_mem_details rfl (by decide) (by decide) q)
    hchars
  obtain ⟨hparams, _, hresult⟩ := (List.append_cons_inj_of_notMem
    (not_mem_paramText rfl (by decide) p.params) (not_mem_resultText rfl p)).1 hdetails
  have hreturns := (String.append_right_inj _).1 (String.toList_inj.1 hresult)
  obtain ⟨name, params, returns⟩ := p
  obtain ⟨name', params', returns'⟩ := q
  obtain rfl : name = name' := String.toList_inj.1 hname
  obtain rfl : params = params' := Param.intercalate_injective (String.toList_inj.1 hparams)
  obtain rfl : returns = returns' := Kind.typeName_injective hreturns
  rfl

/-- The name begins with the line of another predicate. -/
def StartsWithLine (p : Predicate) : Prop :=
  ∃ (q : Predicate) (rest : String), p.name = q.line ++ rest

/-- A name without a line break begins with no line. -/
theorem not_startsWithLine_of_not_mem {p : Predicate} (h : '\n' ∉ p.name.toList) :
    ¬ p.StartsWithLine := by
  rintro ⟨q, rest, hname⟩
  rw [hname, String.toList_append, toList_line] at h
  exact h (List.mem_append_left _ (List.mem_append_right _ List.mem_cons_self))

/-- A line that begins with another one is that line, unless it does so within the name. -/
theorem eq_of_line_append {p q : Predicate} (hq : ¬ q.StartsWithLine) {more : List Char}
    (h : q.line.toList = p.line.toList ++ more) : p = q ∧ more = [] := by
  have hline : p.line.toList =
      p.name.toList ++ '(' :: (p.paramText.toList ++ ')' :: p.resultText.toList) ++ ['\n'] :=
    toList_line p
  have hsplit := h
  rw [toList_line q, List.append_assoc] at hsplit
  rcases List.append_eq_append_iff.1 hsplit with ⟨inside, hname, hdetails⟩ | ⟨rest, hname, _⟩
  · rcases List.eq_nil_or_concat inside with rfl | ⟨front, last, rfl⟩
    · refine absurd ⟨p, "", ?_⟩ hq
      rw [String.append_empty, ← String.toList_inj, hname, List.append_nil]
    · -- the line ends with a break, and there is no other one behind the name
      rw [hline, List.concat_eq_append, ← List.append_assoc] at hname
      obtain ⟨_, hlast⟩ := List.append_inj' hname rfl
      obtain rfl : '\n' = last := List.head_eq_of_cons_eq hlast
      rw [List.concat_eq_append, List.append_assoc, List.singleton_append] at hdetails
      have hbreak : '\n' ∉ '(' :: (q.paramText.toList ++ ')' :: q.resultText.toList) := by
        rw [List.mem_cons]
        rintro (hmem | hmem)
        · exact absurd hmem (by decide)
        · exact not_mem_details rfl (by decide) (by decide) q hmem
      obtain ⟨_, _, hmore⟩ :=
        (List.append_cons_inj_of_notMem hbreak List.not_mem_nil).1 hdetails
      rw [← hmore, List.append_nil] at h
      exact ⟨(line_injective (String.toList_inj.1 h)).symm, hmore.symm⟩
  · refine absurd ⟨p, String.ofList rest, ?_⟩ hq
    rw [← String.toList_inj, hname, String.toList_append, String.toList_ofList]

end Predicate

/-! ### Texts of catalogs -/

/-- The text of a catalog, one line for each predicate. -/
def catalogText (ps : List Predicate) : String :=
  String.join (ps.map Predicate.line)

theorem catalogText_cons (p : Predicate) (ps : List Predicate) :
    catalogText (p :: ps) = p.line ++ catalogText ps := by
  rw [catalogText, List.map_cons, String.join_cons]
  rfl

theorem catalogLines_eq (ps : List Predicate) :
    catalogLines ps = (catalogText ps).toByteArray.data.toList := by
  induction ps with
  | nil => rfl
  | cons p ps ih =>
    have hcons : catalogLines (p :: ps) = p.line.toByteArray.data.toList ++ catalogLines ps := rfl
    rw [hcons, ih, catalogText_cons, String.toByteArray_append, ByteArray.data_append,
      Array.toList_append]

theorem catalogLines_eq_iff {ps qs : List Predicate} :
    catalogLines ps = catalogLines qs ↔ catalogText ps = catalogText qs := by
  rw [catalogLines_eq, catalogLines_eq, Array.toList_inj, ← ByteArray.ext_iff,
    String.toByteArray_inj]

theorem catalogText_cons_ne (p : Predicate) (ps : List Predicate) : catalogText (p :: ps) ≠ "" := by
  intro hempty
  rw [catalogText_cons, String.append_eq_empty_iff] at hempty
  have hchars := congrArg String.toList hempty.1
  rw [Predicate.toList_line] at hchars
  exact absurd hchars (by simp)

/-- Without names that begin with a line, the text determines the catalog. -/
theorem catalogText_injective {ps qs : List Predicate} (hps : ∀ p ∈ ps, ¬ p.StartsWithLine)
    (hqs : ∀ q ∈ qs, ¬ q.StartsWithLine) (h : catalogText ps = catalogText qs) : ps = qs := by
  induction ps generalizing qs with
  | nil =>
    cases qs with
    | nil => rfl
    | cons q qs => exact absurd h.symm (catalogText_cons_ne q qs)
  | cons p ps ih =>
    cases qs with
    | nil => exact absurd h (catalogText_cons_ne p ps)
    | cons q qs =>
      obtain ⟨hp, hps'⟩ := List.forall_mem_cons.1 hps
      obtain ⟨hq, hqs'⟩ := List.forall_mem_cons.1 hqs
      have hchars := congrArg String.toList h
      rw [catalogText_cons, catalogText_cons, String.toList_append, String.toList_append] at hchars
      -- one of the two lines in front begins with the other one
      rcases List.append_eq_append_iff.1 hchars with ⟨more, hline, hrest⟩ | ⟨more, hline, hrest⟩
      · obtain ⟨hfirst, rfl⟩ := Predicate.eq_of_line_append hq hline
        rw [hfirst, ih hps' hqs' (String.toList_inj.1 hrest)]
      · obtain ⟨hfirst, rfl⟩ := Predicate.eq_of_line_append hp hline
        rw [hfirst, ih hps' hqs' (String.toList_inj.1 hrest.symm)]

/-- A predicate whose name begins with a line reads as two predicates. -/
theorem Predicate.StartsWithLine.exists_split {p : Predicate} (h : p.StartsWithLine) :
    ∃ q r : Predicate, ∀ before after : List Predicate,
      catalogText (before ++ p :: after) = catalogText (before ++ q :: r :: after) := by
  obtain ⟨q, rest, hname⟩ := h
  refine ⟨q, ⟨rest, p.params, p.returns⟩, ?_⟩
  intro before after
  have hline : p.line = q.line ++ line ⟨rest, p.params, p.returns⟩ := by
    simp only [line, signature, hname, String.append_assoc]
  induction before with
  | nil =>
    rw [List.nil_append, List.nil_append, catalogText_cons, catalogText_cons, catalogText_cons,
      hline, String.append_assoc]
  | cons first before ih =>
    rw [List.cons_append, List.cons_append, catalogText_cons, catalogText_cons, ih]

end ScoreScript
