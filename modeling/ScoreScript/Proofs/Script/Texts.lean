import ScoreScript.Compiled.Basic
import ScoreScript.Proofs.Result
import ScoreScript.Script.Rendering

/-!
# Texts of trees and of compiled scripts

A list of trees has the texts of its members.  The text that shows what a block does is made from
the block alone, and it can be compared part by part with the text of a tree.

* `Tree.renderAll_eq_ok_iff`, `Tree.exists_renderAll` — the texts of a list of trees;
* `Call.text`, `Condition.text`, `Block.text` — the texts of compiled parts;
* `Tracks` — two texts agree, or they part for good;
* `Tracks.append`, `TracksAll.intercalate`, `TracksAll.join` — the comparison, part by part;
* `append_inj_of_stop` — the longest front of a text without a sign;
* `Literal.head?_text`, `Comparator.head?_text` — the first characters that tell texts apart.
-/

namespace ScoreScript

/-! ### Texts of lists of trees -/

namespace Tree

theorem renderAll_eq_mapM (ts : List Tree) : renderAll ts = ts.mapM render := by
  induction ts with
  | nil => rw [renderAll, List.mapM_nil]; rfl
  | cons t rest ih => rw [renderAll, List.mapM_cons, ih]

theorem renderAll_eq_ok_iff {ts : List Tree} {texts : List String} :
    renderAll ts = .ok texts ↔ List.Forall₂ (fun t text => t.render = .ok text) ts texts := by
  rw [renderAll_eq_mapM, Result.mapM_eq_ok_iff]

theorem exists_renderAll {ts : List Tree} (h : ∀ t ∈ ts, ∃ text, t.render = .ok text) :
    ∃ texts, renderAll ts = .ok texts := by
  rw [renderAll_eq_mapM]
  exact Result.exists_mapM_eq_ok h

end Tree

/-! ### Texts of blocks -/

/-- The arguments of a call in the order of its parameters. -/
def argumentTexts : List Param → List Literal → List String
  | .state :: params, values => Terminal.state.text :: argumentTexts params values
  | .action :: params, values => Terminal.action.text :: argumentTexts params values
  | .choice _ :: params, value :: values => value.text :: argumentTexts params values
  | _, _ => []

/-- A call with its arguments. -/
def Call.text (c : Call) : String :=
  callText c.predicate.name (argumentTexts c.predicate.params c.arguments)

/-- A condition, fully parenthesized. -/
def Condition.text : Condition → String
  | call _ c => c.text
  | compare _ c op value => comparisonText c.text op.text value.text
  | and _ a b => "(" ++ a.text ++ " and " ++ b.text ++ ")"
  | or _ a b => "(" ++ a.text ++ " or " ++ b.text ++ ")"
  | not _ a => "(not " ++ a.text ++ ")"

/-- A block as one line. -/
def Block.text (b : Block) : String :=
  blockText b.condition.text (adjustmentText b.delta)

/-! ### Comparing texts -/

/-- The texts agree if the flag is set.  Otherwise they part for good: nothing behind them makes
them agree again. -/
def Tracks : Bool → String → String → Prop
  | true, s, t => s = t
  | false, s, t => ∀ x y : String, s ++ x ≠ t ++ y

namespace Tracks

theorem same (s : String) : Tracks true s s := rfl

theorem append {p q : Bool} {s t s' t' : String} (h : Tracks p s t) (h' : Tracks q s' t') :
    Tracks (p && q) (s ++ s') (t ++ t') := by
  cases p with
  | false =>
    intro x y heq
    rw [String.append_assoc, String.append_assoc] at heq
    exact h _ _ heq
  | true =>
    obtain rfl : s = t := h
    cases q with
    | true =>
      obtain rfl : s' = t' := h'
      rfl
    | false =>
      intro x y heq
      rw [String.append_assoc, String.append_assoc] at heq
      exact h' x y ((String.append_right_inj s).1 heq)

/-- The same text in front. -/
theorem prepend {p : Bool} {s t : String} (before : String) (h : Tracks p s t) :
    Tracks p (before ++ s) (before ++ t) :=
  (same before).append h

/-- The same text behind. -/
theorem extend {p : Bool} {s t : String} (h : Tracks p s t) (after : String) :
    Tracks p (s ++ after) (t ++ after) := by
  have happend := h.append (same after)
  rwa [Bool.and_true] at happend

/-- Texts that begin with different characters part at once. -/
theorem of_head {s t : String} {a b : Char} (hs : s.toList.head? = some a)
    (ht : t.toList.head? = some b) (hne : a ≠ b) : Tracks false s t := by
  intro x y heq
  have hhead := congrArg (fun u : String => u.toList.head?) heq
  simp only [String.toList_append, List.head?_append, hs, ht, Option.some_or, Option.some.injEq]
    at hhead
  exact hne hhead

theorem eq_iff {p : Bool} {s t : String} (h : Tracks p s t) : s = t ↔ p = true := by
  cases p with
  | true => exact ⟨fun _ => rfl, fun _ => h⟩
  | false =>
    constructor
    · intro heq
      exact absurd (congrArg (· ++ "") heq) (h "" "")
    · intro hp
      cases hp

end Tracks

/-- Texts that are compared one by one.  The flag says whether all of them agree. -/
inductive TracksAll : Bool → List String → List String → Prop
  | nil : TracksAll true [] []
  | cons {p q : Bool} {s t : String} {ss ts : List String} :
    Tracks p s t → TracksAll q ss ts → TracksAll (p && q) (s :: ss) (t :: ts)

namespace TracksAll

theorem join {p : Bool} {ss ts : List String} (h : TracksAll p ss ts) :
    Tracks p (String.join ss) (String.join ts) := by
  induction h with
  | nil => exact .same _
  | cons hfirst _ ih =>
    rw [String.join_cons, String.join_cons]
    exact hfirst.append ih

theorem intercalate {p : Bool} {ss ts : List String} (separator : String)
    (h : TracksAll p ss ts) :
    Tracks p (separator.intercalate ss) (separator.intercalate ts) := by
  induction h with
  | nil => exact .same _
  | @cons p q s t ss ts hfirst hrest ih =>
    cases hrest with
    | nil =>
      rw [String.intercalate_singleton, String.intercalate_singleton, Bool.and_true]
      exact hfirst
    | cons hsecond hmore =>
      rw [String.intercalate_cons_cons, String.intercalate_cons_cons, String.append_assoc,
        String.append_assoc]
      exact hfirst.append (ih.prepend separator)

end TracksAll

/-! ### Fronts of texts -/

/-- Two texts without a sign, each with a sign behind it, or with nothing behind it. -/
theorem append_inj_of_stop {stop : Char → Bool} {s t x y : String}
    (hs : s.toList.any stop = false) (ht : t.toList.any stop = false)
    (hx : x.toList.head?.all stop = true) (hy : y.toList.head?.all stop = true)
    (h : s ++ x = t ++ y) : s = t ∧ x = y := by
  have hchars : s.toList ++ x.toList = t.toList ++ y.toList := by
    rw [← String.toList_append, h, String.toList_append]
  have hdrop : ∀ {cs ds : List Char}, cs.any stop = false → ds.head?.all stop = true →
      (cs ++ ds).dropWhile (fun c => !stop c) = ds := by
    intro cs ds hcs hds
    rw [List.dropWhile_append_of_pos (by simpa using hcs)]
    cases ds with
    | nil => rfl
    | cons d ds => rw [List.dropWhile_cons_of_neg (by simpa using hds)]
  have hxy : x.toList = y.toList := by
    rw [← hdrop hs hx, hchars, hdrop ht hy]
  obtain rfl := String.toList_inj.1 hxy
  exact ⟨(String.append_left_inj x).1 h, rfl⟩

/-- A sign in front stays in front. -/
theorem head?_append_all {stop : Char → Bool} {s : String} (h : s.toList.head?.any stop = true)
    (x : String) : (s ++ x).toList.head?.all stop = true := by
  cases hs : s.toList with
  | nil =>
    rw [hs] at h
    cases h
  | cons c cs =>
    rw [hs] at h
    rw [String.toList_append, hs]
    exact h

theorem join_map_append {separator : String} {texts : List String} (h : texts ≠ []) :
    String.join (texts.map (separator ++ ·)) = separator ++ separator.intercalate texts := by
  induction texts with
  | nil => exact absurd rfl h
  | cons text rest ih =>
    rw [List.map_cons, String.join_cons, String.append_assoc, String.append_right_inj]
    cases rest with
    | nil => rw [List.map_nil, String.join_nil, String.append_empty, String.intercalate_singleton]
    | cons next rest =>
      rw [ih (List.cons_ne_nil _ _), String.intercalate_cons_cons, String.append_assoc]

/-! ### First characters -/

theorem head?_repr (n : Int) :
    ∃ c, n.repr.toList.head? = some c ∧ c ≠ '(' ∧ c ≠ 's' := by
  have hdigits : ∀ m : Nat, ∃ c, m.repr.toList.head? = some c ∧ c ≠ '(' ∧ c ≠ 's' := by
    intro m
    obtain ⟨c, rest, hc⟩ := List.exists_cons_of_ne_nil (Nat.toDigits_ne_nil (n := m) (b := 10))
    have hdigit : c.isDigit = true :=
      Nat.isDigit_of_mem_toDigits (n := m) (b := 10) (by decide) (by decide)
        (hc ▸ List.mem_cons_self)
    refine ⟨c, by rw [Nat.toList_repr, hc, List.head?_cons], ?_, ?_⟩
    · intro heq
      rw [heq] at hdigit
      exact absurd hdigit (by decide)
    · intro heq
      rw [heq] at hdigit
      exact absurd hdigit (by decide)
  cases n with
  | ofNat m => exact hdigits m
  | negSucc m =>
    refine ⟨'-', ?_, by decide, by decide⟩
    rw [Int.repr, String.toList_append]
    rfl

/-- No literal is shown with an opening parenthesis in front. -/
theorem Literal.head?_text (v : Literal) : ∃ c, v.text.toList.head? = some c ∧ c ≠ '(' := by
  cases v with
  | bool b => cases b <;> exact ⟨_, rfl, by decide⟩
  | int n =>
    obtain ⟨c, hc, hne, _⟩ := head?_repr n.toInt
    exact ⟨c, hc, hne⟩
  | multiplier m => cases m <;> exact ⟨_, rfl, by decide⟩
  | element e => cases e <;> exact ⟨_, rfl, by decide⟩
  | weather w =>
    cases w with
    | none => exact ⟨_, rfl, by decide⟩
    | some w => cases w <;> exact ⟨_, rfl, by decide⟩
  | status s =>
    cases s with
    | none => exact ⟨_, rfl, by decide⟩
    | some s => cases s <;> exact ⟨_, rfl, by decide⟩
  | stat s => cases s <;> exact ⟨_, rfl, by decide⟩

theorem Comparator.head?_text (op : Comparator) :
    ∃ c, op.text.toList.head? = some c ∧ c ≠ '(' := by
  cases op <;> exact ⟨_, rfl, by decide⟩

end ScoreScript
