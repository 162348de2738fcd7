import ScoreScript.Declaration.Reader

/-!
# Words

* `Declaration.isWord` — an ASCII letter or an underscore, and then letters, digits and underscores;
* `Declaration.readWord_eq_some_iff` — the word that is read goes on as far as possible.
-/

namespace ScoreScript.Declaration

/-- An ASCII letter or an underscore, and then ASCII letters, digits and underscores. -/
def isWord (word : String) : Bool :=
  match word.toList with
  | [] => false
  | c :: rest => isWordStart c && rest.all isWordPart

theorem isWordPart_of_isWordStart {c : Char} (h : isWordStart c = true) : isWordPart c = true := by
  unfold isWordStart at h
  unfold isWordPart Char.isAlphanum
  cases hc : c.isAlpha with
  | true => rfl
  | false =>
    rw [hc, Bool.false_or] at h
    rw [h, Bool.or_true]

/-- A word has a first character, and all of its characters go on a word. -/
theorem isWord_iff {word : String} :
    isWord word = true ↔
      ∃ c rest, word.toList = c :: rest ∧ isWordStart c = true ∧ rest.all isWordPart = true := by
  unfold isWord
  cases word.toList with
  | nil => simp
  | cons c rest =>
    rw [Bool.and_eq_true]
    constructor
    · exact fun h => ⟨c, rest, rfl, h⟩
    · rintro ⟨d, rest', heq, h⟩
      obtain ⟨rfl, rfl⟩ := List.cons.inj heq
      exact h

theorem isWordPart_of_mem {word : String} (h : isWord word = true) {c : Char}
    (hc : c ∈ word.toList) : isWordPart c = true := by
  obtain ⟨d, rest, hword, hstart, hrest⟩ := isWord_iff.1 h
  rw [hword] at hc
  rcases List.mem_cons.1 hc with rfl | hc
  · exact isWordPart_of_isWordStart hstart
  · exact List.all_eq_true.1 hrest c hc

/-- What goes on a word ends where the word ends, and not before. -/
theorem takeWhile_append_of_stop {cs rest : List Char} (hcs : cs.all isWordPart = true)
    (hrest : rest.head?.any isWordPart = false) :
    (cs ++ rest).takeWhile isWordPart = cs ∧ (cs ++ rest).dropWhile isWordPart = rest := by
  have hall := List.all_eq_true.1 hcs
  rw [List.takeWhile_append_of_pos hall, List.dropWhile_append_of_pos hall]
  cases rest with
  | nil => exact ⟨List.append_nil cs, rfl⟩
  | cons c rest =>
    have hc : ¬ isWordPart c = true := by simpa using hrest
    rw [List.takeWhile_cons_of_neg hc, List.dropWhile_cons_of_neg hc, List.append_nil]
    exact ⟨rfl, rfl⟩

theorem head?_dropWhile_any (p : Char → Bool) (cs : List Char) :
    (cs.dropWhile p).head?.any p = false := by
  have hnot := List.head?_dropWhile_not p cs
  cases hhead : (cs.dropWhile p).head? with
  | none => rfl
  | some c =>
    rw [hhead] at hnot
    exact hnot

/-- The word that is read at the front of a text is the one behind which nothing goes on it. -/
theorem readWord_eq_some_iff {text rest : List Char} {word : String} :
    readWord text = some (word, rest) ↔
      text = word.toList ++ rest ∧ isWord word = true ∧ rest.head?.any isWordPart = false := by
  constructor
  · intro h
    cases text with
    | nil => cases h
    | cons c tail =>
      rw [readWord] at h
      split at h
      · rename_i hstart
        obtain ⟨rfl, rfl⟩ := Prod.mk.inj (Option.some.inj h)
        refine ⟨?_, ?_, head?_dropWhile_any isWordPart tail⟩
        · rw [String.toList_ofList, List.cons_append, List.takeWhile_append_dropWhile]
        · exact isWord_iff.2 ⟨c, _, String.toList_ofList, hstart, List.all_takeWhile⟩
      · cases h
  · rintro ⟨rfl, hword, hrest⟩
    obtain ⟨c, cs, hcs, hstart, hall⟩ := isWord_iff.1 hword
    obtain ⟨htake, hdrop⟩ := takeWhile_append_of_stop hall hrest
    rw [hcs, List.cons_append, readWord, if_pos hstart, htake, hdrop, ← hcs, String.ofList_toList]

end ScoreScript.Declaration
