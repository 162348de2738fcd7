import ScoreScript.Proofs.Declaration.Word
import ScoreScript.Proofs.Tree.Limits
import ScoreScript.Proofs.Tree.Parts

/-!
# Texts of labels

Labels are made of few signs.  In particular the signs that lay out a text, parentheses, blanks and
line ends, stand in no label, unless the label is a name in which they do.

* `isLabelSign`, `isLayout` — the signs of labels and the signs of layout;
* `Literal.all_text`, `Comparator.all_text`, `Rule.all_text` — the signs of labels suffice;
* `Terminal.not_mem_text`, `Symbol.isLayout_text` — labels without signs of layout;
* `Tree.names` — the names in a tree, and `Tree.mem_names` — the labels that they are read off.
-/

namespace ScoreScript

/-! ### Signs -/

/-- Letters, digits and the other signs of which labels are made. -/
def isLabelSign (c : Char) : Bool :=
  c.isAlphanum || "-_.'<=>!".toList.contains c

/-- Parentheses, blanks and line ends. -/
def isLayout (c : Char) : Bool :=
  c == '(' || c == ')' || c == ' ' || c == '\n'

theorem isLabelSign_of_isLayout {c : Char} (h : isLayout c = true) : isLabelSign c = false := by
  simp only [isLayout, Bool.or_eq_true, beq_iff_eq] at h
  rcases h with ((rfl | rfl) | rfl) | rfl <;> decide

/-- A text that is made of the signs of labels has no other signs. -/
theorem any_eq_false_of_all {s : String} (h : s.toList.all isLabelSign = true) {p : Char → Bool}
    (hp : ∀ c, p c = true → isLabelSign c = false) : s.toList.any p = false := by
  rw [List.any_eq_false]
  intro c hc hpc
  have hsign := List.all_eq_true.1 h c hc
  rw [hp c hpc] at hsign
  cases hsign

/-! ### Labels -/

theorem all_natRepr (n : Nat) : n.repr.toList.all isLabelSign = true := by
  rw [Nat.toList_repr, List.all_eq_true]
  intro c hc
  have hdigit := Nat.isDigit_of_mem_toDigits (by decide) (by decide) hc
  rw [isLabelSign, Char.isAlphanum, hdigit, Bool.or_true, Bool.true_or]

theorem all_intRepr (n : Int) : n.repr.toList.all isLabelSign = true := by
  cases n with
  | ofNat m => exact all_natRepr m
  | negSucc m =>
    rw [Int.repr, String.toList_append, List.all_append, all_natRepr, Bool.and_true]
    decide

theorem Literal.all_text (v : Literal) : v.text.toList.all isLabelSign = true := by
  cases v with
  | bool b => cases b <;> decide
  | int n => exact all_intRepr n.toInt
  | multiplier m => cases m <;> decide
  | element e => cases e <;> decide
  | weather w =>
    cases w with
    | none => decide
    | some w => cases w <;> decide
  | status s =>
    cases s with
    | none => decide
    | some s => cases s <;> decide
  | stat s => cases s <;> decide

theorem Comparator.all_text (op : Comparator) : op.text.toList.all isLabelSign = true := by
  cases op <;> decide

theorem Rule.all_text (r : Rule) : r.text.toList.all isLabelSign = true := by
  cases r with
  | literal kind => cases kind <;> decide
  | predicate index =>
    rw [text, String.toList_append, List.all_append, all_natRepr, Bool.and_true]
    decide
  | _ => decide

theorem all_of_isWord {word : String} (h : Declaration.isWord word = true) :
    word.toList.all isLabelSign = true := by
  rw [List.all_eq_true]
  intro c hc
  have hpart := Declaration.isWordPart_of_mem h hc
  simp only [Declaration.isWordPart, Bool.or_eq_true, beq_iff_eq] at hpart
  rcases hpart with halpha | rfl
  · rw [isLabelSign, halpha, Bool.true_or]
  · decide

/-- A terminal other than a name is made of the signs of labels. -/
theorem Terminal.all_text {t : Terminal}
    (hname : ∀ name, t = .name name → name.toList.all isLabelSign = true) :
    t.text.toList.all isLabelSign = true := by
  cases t with
  | name text => exact hname text rfl
  | state => decide
  | action => decide
  | op comparator => exact comparator.all_text
  | value literal => exact literal.all_text

/-! ### Layout -/

theorem not_mem_of_all {s : String} (h : s.toList.all isLabelSign = true) {c : Char}
    (hc : isLayout c = true) : c ∉ s.toList := fun hmem =>
  List.any_eq_false.1 (any_eq_false_of_all h fun _ => isLabelSign_of_isLayout) c hmem hc

theorem not_mem_append {c : Char} {s t : String} (hs : c ∉ s.toList) (ht : c ∉ t.toList) :
    c ∉ (s ++ t).toList := by
  rw [String.toList_append, List.mem_append]
  exact fun h => h.elim hs ht

/-- A sign of layout stands in a terminal only if that is a name in which it stands. -/
theorem Terminal.not_mem_text {c : Char} (hc : isLayout c = true) {t : Terminal}
    (hname : ∀ name, t = .name name → c ∉ name.toList) : c ∉ t.text.toList := by
  cases t with
  | name text => exact hname text rfl
  | _ => exact not_mem_of_all (all_text fun name h => by cases h) hc

/-- Where names are words, labels are without layout. -/
theorem Symbol.isLayout_text {s : Symbol}
    (hname : ∀ name, s = .terminal (.name name) → Declaration.isWord name = true) :
    s.text.toList.any isLayout = false := by
  refine any_eq_false_of_all ?_ fun _ => isLabelSign_of_isLayout
  cases s with
  | rule r => exact r.all_text
  | terminal t => exact Terminal.all_text fun name h => all_of_isWord (hname name (congrArg _ h))

/-! ### Names -/

namespace Tree

mutual

/-- The names in a tree, in preorder. -/
def names : Tree → List String
  | node _ (.terminal (.name name)) children => name :: namesAll children
  | node _ _ children => namesAll children

/-- The names in the trees of a list. -/
def namesAll : List Tree → List String
  | [] => []
  | t :: rest => t.names ++ namesAll rest

end

theorem mem_namesAll {ts : List Tree} {name : String} :
    name ∈ namesAll ts ↔ ∃ t ∈ ts, name ∈ t.names := by
  induction ts with
  | nil => simp [namesAll]
  | cons t rest ih =>
    rw [namesAll, List.mem_append, ih]
    simp

theorem mem_names_node {id : NodeId} {label : Symbol} {children : List Tree} {name : String} :
    name ∈ (node id label children).names ↔
      label = .terminal (.name name) ∨ ∃ t ∈ children, name ∈ t.names := by
  rw [← mem_namesAll]
  cases label with
  | rule r => simp [names]
  | terminal term => cases term <;> simp [names, eq_comm]

theorem mem_names_of_mem_children {id : NodeId} {label : Symbol} {children : List Tree} {t : Tree}
    (ht : t ∈ children) {name : String} (hname : name ∈ t.names) :
    name ∈ (node id label children).names :=
  mem_names_node.2 (Or.inr ⟨t, ht, hname⟩)

/-- The names in a tree are those that label its nodes. -/
theorem mem_names {t : Tree} {name : String} :
    name ∈ t.names ↔ ∃ u ∈ t.preorder, u.label = .terminal (.name name) := by
  induction t using children_induction with
  | node id label children ih =>
    rw [mem_names_node]
    constructor
    · rintro (rfl | ⟨child, hchild, hname⟩)
      · exact ⟨_, mem_preorder_node.2 (Or.inl rfl), rfl⟩
      · obtain ⟨u, hu, hlabel⟩ := (ih child hchild).1 hname
        exact ⟨u, mem_preorder_node.2 (Or.inr ⟨child, hchild, hu⟩), hlabel⟩
    · rintro ⟨u, hu, hlabel⟩
      rcases mem_preorder_node.1 hu with rfl | ⟨child, hchild, hu⟩
      · exact Or.inl hlabel
      · exact Or.inr ⟨child, hchild, (ih child hchild).2 ⟨u, hu, hlabel⟩⟩

end Tree

end ScoreScript
