import ScoreScript.Proofs.Evaluation.Renumbering
import ScoreScript.Proofs.Script.Shown
import ScoreScript.Proofs.Tree.Labels

/-!
# The text determines the blocks

No text shows two different scripts.  A text is read from the left: what stands at its front can be
told without a look at what follows, except that literals and operators go on up to the next sign
that ends them.

* `Literal.Shows.append_inj`, `Call.Shows.append_inj` — literals and calls at the front of a text;
* `Condition.Delimits`, `Condition.Shows.delimits` — conditions at the front of a text, form by form;
* `Generator.blocks_eq_of_source_eq` — scripts with the same text.
-/

namespace ScoreScript

/-! ### Signs -/

/-- The signs that end literals and operators. -/
def isEnd (c : Char) : Bool :=
  c == ')' || c == ',' || c == ' ' || c == '\n'

/-- What stands behind a literal or an operator begins with a sign, if there is anything. -/
def Ends (x : String) : Prop :=
  x.toList.head?.all isEnd = true

theorem ends_append {s : String} (h : s.toList.head?.any isEnd = true) (x : String) :
    Ends (s ++ x) :=
  head?_append_all h x

/-- Texts that begin with different characters are different. -/
theorem append_ne_of_head {s t x y : String} {a b : Char} (hs : s.toList.head? = some a)
    (ht : t.toList.head? = some b) (hne : a ≠ b) : s ++ x ≠ t ++ y :=
  Tracks.of_head hs ht hne x y

theorem and_append_ne_or (x y : String) : " and " ++ x ≠ " or " ++ y := by
  have hand : " and " = " " ++ "and " := by decide
  have hor : " or " = " " ++ "or " := by decide
  intro heq
  simp only [hand, hor, String.append_assoc, String.append_right_inj] at heq
  exact append_ne_of_head rfl rfl (by decide) heq

/-! ### Literals and operators -/

theorem isLabelSign_of_isEnd {c : Char} (h : isEnd c = true) : isLabelSign c = false := by
  simp only [isEnd, Bool.or_eq_true, beq_iff_eq] at h
  rcases h with ((rfl | rfl) | rfl) | rfl <;> decide

theorem isEnd_repr (n : Nat) : n.repr.toList.any isEnd = false :=
  any_eq_false_of_all (all_natRepr n) fun _ => isLabelSign_of_isEnd

theorem natRepr_injective {m n : Nat} (h : m.repr = n.repr) : m = n := by
  have hdigits : Nat.toDigits 10 m = Nat.toDigits 10 n := by
    rw [← Nat.toList_repr, h, Nat.toList_repr]
  have hvalue := congrArg (Nat.ofDigitChars 10 · 0) hdigits
  simpa only [Nat.ofDigitChars_ten_toDigits] using hvalue

theorem intRepr_injective {m n : Int} (h : m.repr = n.repr) : m = n := by
  have hsign : ∀ k l : Nat, k.repr ≠ "-" ++ l.repr := by
    intro k l hsame
    have hmem : '-' ∈ k.repr.toList := by
      rw [hsame, String.toList_append]
      exact List.mem_append_left _ (by decide)
    rw [Nat.toList_repr] at hmem
    exact absurd (Nat.isDigit_of_mem_toDigits (by decide) (by decide) hmem) (by decide)
  cases m with
  | ofNat k =>
    cases n with
    | ofNat l => rw [natRepr_injective h]
    | negSucc l => exact absurd h (hsign _ _)
  | negSucc k =>
    cases n with
    | ofNat l => exact absurd h.symm (hsign _ _)
    | negSucc l =>
      have hsucc := natRepr_injective ((String.append_right_inj _).1 h)
      rw [Nat.succ.inj hsucc]

/-- No sign stands within a literal. -/
theorem Literal.isEnd_text (v : Literal) : v.text.toList.any isEnd = false :=
  any_eq_false_of_all v.all_text fun _ => isLabelSign_of_isEnd

theorem Comparator.isEnd_text (op : Comparator) : op.text.toList.any isEnd = false :=
  any_eq_false_of_all op.all_text fun _ => isLabelSign_of_isEnd

theorem Comparator.text_injective {op op' : Comparator} (h : op.text = op'.text) : op = op' := by
  cases op <;> cases op' <;> first | rfl | exact absurd h (by decide)

/-- Literals of one sort are told apart by their texts. -/
theorem Literal.text_injective {v w : Literal} (hsort : v.sameSort w = true)
    (h : v.text = w.text) : v = w := by
  cases v <;> cases w <;> try cases hsort
  case bool.bool b b' => cases b <;> cases b' <;> first | rfl | exact absurd h (by decide)
  case int.int n n' => rw [Int64.toInt_inj.1 (intRepr_injective h)]
  case multiplier.multiplier m m' =>
    cases m <;> cases m' <;> first | rfl | exact absurd h (by decide)
  case element.element e e' =>
    have hname := congrArg Element.ofName? h
    simp only [text, Element.ofName?_name, Option.some.injEq] at hname
    rw [hname]
  case weather.weather o o' =>
    cases o <;> cases o'
    case none.none => rfl
    case none.some w' => cases w' <;> exact absurd h (by decide)
    case some.none w => cases w <;> exact absurd h (by decide)
    case some.some w w' =>
      have hname := congrArg Weather.ofName? h
      simp only [text, Weather.ofName?_name, Option.some.injEq] at hname
      rw [hname]
  case status.status o o' =>
    cases o <;> cases o'
    case none.none => rfl
    case none.some s' => cases s' <;> exact absurd h (by decide)
    case some.none s => cases s <;> exact absurd h (by decide)
    case some.some s s' =>
      have hname := congrArg Status.ofName? h
      simp only [text, Status.ofName?_name, Option.some.injEq] at hname
      rw [hname]
  case stat.stat s s' =>
    have hquoted := (String.append_left_inj _).1 h
    have hname := congrArg Stat.ofName? ((String.append_right_inj _).1 hquoted)
    simp only [Stat.ofName?_name, Option.some.injEq] at hname
    rw [hname]

/-- Adjustments with something behind them are told apart. -/
theorem adjustmentText_append_inj {m n : Int} {x y : String} (hx : Ends x) (hy : Ends y)
    (h : adjustmentText m ++ x = adjustmentText n ++ y) : m = n ∧ x = y := by
  have hword : ∀ {k l : Nat} {sign : String}, sign ++ k.repr ++ x = sign ++ l.repr ++ y →
      k = l ∧ x = y := by
    intro k l sign hsame
    rw [String.append_assoc, String.append_assoc, String.append_right_inj] at hsame
    obtain ⟨hrepr, hxy⟩ := append_inj_of_stop (isEnd_repr k) (isEnd_repr l) hx hy hsame
    exact ⟨natRepr_injective hrepr, hxy⟩
  have hsign : ∀ (k l : Nat) (u v : String),
      "score -= " ++ k.repr ++ u ≠ "score += " ++ l.repr ++ v := by
    intro k l u v hsame
    have hminus : "score -= " = "score " ++ "-= " := by decide
    have hplus : "score += " = "score " ++ "+= " := by decide
    rw [hminus, hplus] at hsame
    simp only [String.append_assoc, String.append_right_inj] at hsame
    exact append_ne_of_head rfl rfl (by decide) hsame
  unfold adjustmentText at h
  split at h <;> split at h
  · obtain ⟨habs, hxy⟩ := hword h
    exact ⟨by omega, hxy⟩
  · exact absurd h (hsign _ _ _ _)
  · exact absurd h.symm (hsign _ _ _ _)
  · obtain ⟨habs, hxy⟩ := hword h
    exact ⟨by omega, hxy⟩

/-- No integer is shown as an adjustment is. -/
theorem Literal.text_append_ne_adjustmentText {v : Literal} {n m : Int64}
    (hsort : v.sameSort (.int m) = true) (x y : String) :
    v.text ++ x ≠ adjustmentText n.toInt ++ y := by
  cases v with
  | int k =>
    obtain ⟨c, hc, _, hne⟩ := head?_repr k.toInt
    exact append_ne_of_head hc (Tree.head?_adjustmentText n.toInt) hne
  | _ => cases hsort

/-- The literal at the front of a text is told by its sort. -/
theorem Literal.Shows.append_inj {v w : Literal} {s t x y : String} (hv : v.Shows s)
    (hw : w.Shows t) (hsort : v.sameSort w = true) (hx : Ends x) (hy : Ends y)
    (h : s ++ x = t ++ y) : v = w ∧ x = y := by
  induction hv generalizing t x y with
  | text v =>
    obtain ⟨c, hc, hparen⟩ := v.head?_text
    cases hw with
    | text =>
      obtain ⟨htext, hxy⟩ := append_inj_of_stop v.isEnd_text w.isEnd_text hx hy h
      exact ⟨text_injective hsort htext, hxy⟩
    | adjustment n => exact absurd h (text_append_ne_adjustmentText hsort x y)
    | @negated _ inner _ => exact absurd h (append_ne_of_head hc (Tree.head?_notText inner) hparen)
  | adjustment n =>
    have hs := Tree.head?_adjustmentText n.toInt
    cases hw with
    | text =>
      have hsort' : w.sameSort (.int n) = true := by
        cases w <;> first | rfl | cases hsort
      exact absurd h.symm (text_append_ne_adjustmentText hsort' y x)
    | adjustment n' =>
      obtain ⟨hn, hxy⟩ := adjustmentText_append_inj hx hy h
      rw [Int64.toInt_inj.1 hn]
      exact ⟨rfl, hxy⟩
    | @negated _ inner _ =>
      exact absurd h (append_ne_of_head hs (Tree.head?_notText inner) (by decide))
  | @negated v s hv ih =>
    cases hw with
    | text =>
      obtain ⟨c, hc, hparen⟩ := w.head?_text
      exact absurd h (append_ne_of_head (Tree.head?_notText s) hc hparen.symm)
    | adjustment n =>
      have ht := Tree.head?_adjustmentText n.toInt
      exact absurd h (append_ne_of_head (Tree.head?_notText s) ht (by decide))
    | @negated _ t hw =>
      simp only [String.append_assoc, String.append_right_inj] at h
      obtain ⟨hvw, hclose⟩ := ih hw hsort (ends_append (by decide) x) (ends_append (by decide) y) h
      exact ⟨hvw, (String.append_right_inj _).1 hclose⟩

/-- The operator at the front of a text. -/
theorem Comparator.Shows.append_inj {op op' : Comparator} {s t x y : String} (hs : op.Shows s)
    (ht : op'.Shows t) (hx : Ends x) (hy : Ends y) (h : s ++ x = t ++ y) : op = op' ∧ x = y := by
  induction hs generalizing t x y with
  | text =>
    cases ht with
    | text =>
      obtain ⟨htext, hxy⟩ := append_inj_of_stop op.isEnd_text op'.isEnd_text hx hy h
      exact ⟨text_injective htext, hxy⟩
    | @negated inner _ =>
      obtain ⟨c, hc, hparen⟩ := op.head?_text
      exact absurd h (append_ne_of_head hc (Tree.head?_notText inner) hparen)
  | @negated s hs ih =>
    cases ht with
    | text =>
      obtain ⟨c, hc, hparen⟩ := op'.head?_text
      exact absurd h (append_ne_of_head (Tree.head?_notText s) hc hparen.symm)
    | @negated t ht =>
      simp only [String.append_assoc, String.append_right_inj] at h
      obtain ⟨hop, hclose⟩ := ih ht (ends_append (by decide) x) (ends_append (by decide) y) h
      exact ⟨hop, (String.append_right_inj _).1 hclose⟩

/-! ### Calls -/

/-- Behind an argument there is a comma or the closing parenthesis. -/
theorem ends_arguments (texts : List String) (x : String) :
    Ends (String.join (texts.map (", " ++ ·)) ++ (")" ++ x)) := by
  cases texts with
  | nil =>
    rw [List.map_nil, String.join_nil, String.empty_append]
    exact ends_append (by decide) x
  | cons text rest =>
    rw [List.map_cons, String.join_cons, String.append_assoc, String.append_assoc]
    exact ends_append (by decide) _

/-- The first of some arguments at the front of a text, and all that follow. -/
theorem ArgumentsShow.join_inj {params : List Param} {values values' : List Literal}
    {texts texts' : List String} (h : ArgumentsShow params values texts)
    (h' : ArgumentsShow params values' texts') {x y : String}
    (heq : String.join (texts.map (", " ++ ·)) ++ (")" ++ x) =
      String.join (texts'.map (", " ++ ·)) ++ (")" ++ y)) : values = values' ∧ x = y := by
  induction h generalizing values' texts' with
  | nil =>
    cases h'
    simp only [List.map_nil, String.join_nil, String.empty_append, String.append_right_inj] at heq
    exact ⟨rfl, heq⟩
  | state _ ih =>
    cases h' with
    | state hrest' =>
      simp only [List.map_cons, String.join_cons, String.append_assoc, String.append_right_inj]
        at heq
      exact ih hrest' heq
  | action _ ih =>
    cases h' with
    | action hrest' =>
      simp only [List.map_cons, String.join_cons, String.append_assoc, String.append_right_inj]
        at heq
      exact ih hrest' heq
  | choice hlegal htext _ ih =>
    cases h' with
    | choice hlegal' htext' hrest' =>
      simp only [List.map_cons, String.join_cons, String.append_assoc, String.append_right_inj]
        at heq
      obtain ⟨rfl, hmore⟩ := htext.append_inj htext' (Kind.sameSort_of_contains hlegal hlegal')
        (ends_arguments _ x) (ends_arguments _ y) heq
      obtain ⟨rfl, hxy⟩ := ih hrest' hmore
      exact ⟨rfl, hxy⟩

/-- The arguments of a call of one predicate. -/
theorem ArgumentsShow.intercalate_inj {params : List Param} {values values' : List Literal}
    {texts texts' : List String} (h : ArgumentsShow params values texts)
    (h' : ArgumentsShow params values' texts') {x y : String}
    (heq : ", ".intercalate texts ++ (")" ++ x) = ", ".intercalate texts' ++ (")" ++ y)) :
    values = values' ∧ x = y := by
  refine h.join_inj h' ?_
  cases params with
  | nil =>
    cases h
    cases h'
    exact heq
  | cons param params =>
    have hne : texts ≠ [] := by cases h <;> exact List.cons_ne_nil _ _
    have hne' : texts' ≠ [] := by cases h' <;> exact List.cons_ne_nil _ _
    rw [join_map_append hne, join_map_append hne', String.append_assoc, String.append_assoc, heq]

section Conditions

variable {ps : List Predicate} (hnames : ∀ p ∈ ps, Declaration.isWord p.name = true)

/-- What may stand behind a name in front of a condition; no word has such a sign. -/
def isOpen (c : Char) : Bool :=
  c == '(' || c == ' '

theorem isLabelSign_of_isOpen {c : Char} (h : isOpen c = true) : isLabelSign c = false := by
  simp only [isOpen, Bool.or_eq_true, beq_iff_eq] at h
  rcases h with rfl | rfl <;> decide

include hnames

theorem isWord_of_found {target : Nat} {p : Predicate}
    (hfound : findPredicate p.name 0 ps = some (target, p)) : Declaration.isWord p.name = true :=
  hnames p (List.mem_of_getElem? (findPredicate_eq_some hfound).2.1)

theorem isOpen_of_found {target : Nat} {p : Predicate}
    (hfound : findPredicate p.name 0 ps = some (target, p)) : p.name.toList.any isOpen = false :=
  any_eq_false_of_all (all_of_isWord (isWord_of_found hnames hfound)) fun _ => isLabelSign_of_isOpen

/-- The call at the front of a text. -/
theorem Call.Shows.append_inj {c c' : Call} {s t x y : String} (h : c.Shows ps s)
    (h' : c'.Shows ps t) (heq : s ++ x = t ++ y) : c = c' ∧ x = y := by
  cases h with
  | @named target p values texts hfound hshow =>
    cases h' with
    | @named target' p' values' texts' hfound' hshow' =>
      simp only [callText, String.append_assoc] at heq
      obtain ⟨hname, hrest⟩ := append_inj_of_stop (isOpen_of_found hnames hfound)
        (isOpen_of_found hnames hfound') (head?_append_all (by decide) _)
        (head?_append_all (by decide) _) heq
      rw [hname, hfound'] at hfound
      obtain ⟨rfl, rfl⟩ := Prod.mk.inj (Option.some.inj hfound)
      obtain ⟨rfl, hxy⟩ := hshow.intercalate_inj hshow' ((String.append_right_inj _).1 hrest)
      exact ⟨rfl, hxy⟩

/-- A call does not begin with an opening parenthesis. -/
theorem Call.Shows.append_ne_of_paren {c : Call} {s t : String} (h : c.Shows ps s)
    (ht : t.toList.head? = some '(') (x y : String) : t ++ x ≠ s ++ y := by
  cases h with
  | @named target p values texts hfound _ =>
    obtain ⟨char, rest, hname, hstart, _⟩ :=
      Declaration.isWord_iff.1 (isWord_of_found hnames hfound)
    have hs : (callText p.name texts).toList.head? = some char := by
      rw [callText, String.append_assoc, String.append_assoc, String.toList_append, hname]
      rfl
    refine append_ne_of_head ht hs ?_
    rintro rfl
    exact absurd hstart (by decide)

/-- A call does not begin with a negation: the name `not` is followed by a parenthesis. -/
theorem Call.Shows.append_ne_not {c : Call} {s : String} (h : c.Shows ps s) (x y : String) :
    s ++ x ≠ "not " ++ y := by
  intro heq
  cases h with
  | @named target p values texts hfound _ =>
    have hnot : "not " = "not" ++ " " := by decide
    rw [hnot] at heq
    simp only [callText, String.append_assoc] at heq
    obtain ⟨_, hrest⟩ := append_inj_of_stop (isOpen_of_found hnames hfound) (by decide)
      (head?_append_all (by decide) _) (head?_append_all (by decide) _) heq
    exact append_ne_of_head rfl rfl (by decide) hrest

omit hnames in
/-- All conditions but calls begin with an opening parenthesis. -/
theorem Condition.Shows.call_or_paren {a : Condition} {s : String} (h : a.Shows ps s) :
    (∃ id c, a = .call id c ∧ c.Shows ps s ∧ c.predicate.returns.kindClass = .boolean) ∨
      s.toList.head? = some '(' := by
  cases h with
  | call id hc hclass => exact Or.inl ⟨id, _, rfl, hc, hclass⟩
  | compare | and | or | not =>
    right
    simp only [comparisonText, String.append_assoc]
    rw [String.toList_append]
    rfl

/-- A condition that has the text of a call in front is that call. -/
theorem Call.Shows.eq_call {c : Call} {a : Condition} {s t x y : String} (h : c.Shows ps s)
    (ha : a.Shows ps t) (heq : s ++ x = t ++ y) :
    c.predicate.returns.kindClass = .boolean ∧ (∃ id, a = .call id c) ∧ x = y := by
  rcases ha.call_or_paren with ⟨id, c', rfl, hc', hclass⟩ | hparen
  · obtain ⟨rfl, hxy⟩ := h.append_inj hnames hc' heq
    exact ⟨hclass, ⟨id, rfl⟩, hxy⟩
  · exact absurd heq.symm (h.append_ne_of_paren hnames hparen y x)

theorem Condition.Shows.append_ne_not {a : Condition} {s : String} (h : a.Shows ps s)
    (x y : String) : s ++ x ≠ "not " ++ y := by
  rcases h.call_or_paren with ⟨id, c, rfl, hc, _⟩ | hparen
  · exact hc.append_ne_not hnames x y
  · exact append_ne_of_head hparen rfl (by decide)

/-- A text that begins with this one has no condition but the given one at its front, up to numbers. -/
def Condition.Delimits (ps : List Predicate) (a : Condition) (s : String) : Prop :=
  ∀ (a' : Condition) (t x y : String), a'.Shows ps t → s ++ x = t ++ y →
    a.unnumbered = a'.unnumbered ∧ x = y

theorem Call.Shows.delimits {c : Call} {s : String} (h : c.Shows ps s) (id : NodeId) :
    (Condition.call id c).Delimits ps s := by
  intro a' t x y h' heq
  obtain ⟨_, ⟨id', rfl⟩, hxy⟩ := h.eq_call hnames h' heq
  exact ⟨rfl, hxy⟩

/-- Behind the call of a comparison there is its operator, whatever the comparison is taken for. -/
theorem Call.Shows.delimits_compare {c : Call} {op : Comparator} {value : Literal}
    {s opText text : String} (hc : c.Shows ps s)
    (hclass : c.predicate.returns.kindClass ≠ .boolean) (hop : op.Shows opText)
    (hlegal : c.predicate.returns.contains value = true) (hvalue : value.Shows text) (id : NodeId) :
    (Condition.compare id c op value).Delimits ps (comparisonText s opText text) := by
  have hnot : "(not " = "(" ++ "not " := by decide
  intro a' t x y h' heq
  cases h' with
  | call id' hc' hclass' =>
    obtain ⟨_, ⟨_, hcall⟩, _⟩ :=
      hc'.eq_call hnames (.compare id hc hclass hop hlegal hvalue) heq.symm
    cases hcall
  | compare id' hc' _ hop' hlegal' hvalue' =>
    simp only [comparisonText, String.append_assoc, String.append_right_inj] at heq
    obtain ⟨rfl, heq⟩ := hc.append_inj hnames hc' heq
    rw [String.append_right_inj] at heq
    obtain ⟨rfl, heq⟩ := hop.append_inj hop' (ends_append (by decide) _)
      (ends_append (by decide) _) heq
    rw [String.append_right_inj] at heq
    obtain ⟨rfl, heq⟩ := hvalue.append_inj hvalue' (Kind.sameSort_of_contains hlegal hlegal')
      (ends_append (by decide) _) (ends_append (by decide) _) heq
    exact ⟨rfl, (String.append_right_inj _).1 heq⟩
  | and id' ha' hb' | or id' ha' hb' =>
    simp only [comparisonText, String.append_assoc, String.append_right_inj] at heq
    exact absurd (hc.eq_call hnames ha' heq).1 hclass
  | not id' ha' =>
    simp only [comparisonText, hnot, String.append_assoc, String.append_right_inj] at heq
    exact absurd heq (hc.append_ne_not hnames _ _)

namespace Condition.Delimits

variable {a b : Condition} {s t : String}

/-- Behind an opening parenthesis and a condition a connective goes on with its word and its second
condition. -/
theorem connective (hda : a.Delimits ps s) (ha : a.Shows ps s) {a' : Condition} {t y z : String}
    (h' : a'.Shows ps t) (heq : "(" ++ (s ++ z) = t ++ y) :
    (∃ id b c u, a' = .and id b c ∧ a.unnumbered = b.unnumbered ∧ c.Shows ps u ∧
      z = " and " ++ (u ++ (")" ++ y))) ∨
    ∃ id b c u, a' = .or id b c ∧ a.unnumbered = b.unnumbered ∧ c.Shows ps u ∧
      z = " or " ++ (u ++ (")" ++ y)) := by
  have hnot : "(not " = "(" ++ "not " := by decide
  cases h' with
  | call id' hc' _ => exact absurd heq (hc'.append_ne_of_paren hnames rfl _ y)
  | compare id' hc' hclass' _ _ _ =>
    simp only [comparisonText, String.append_assoc, String.append_right_inj] at heq
    exact absurd (hc'.eq_call hnames ha heq.symm).1 hclass'
  | @and id' b c u v hb hc =>
    simp only [String.append_assoc, String.append_right_inj] at heq
    obtain ⟨hab, heq⟩ := hda _ _ _ _ hb heq
    exact Or.inl ⟨id', b, c, v, rfl, hab, hc, heq⟩
  | @or id' b c u v hb hc =>
    simp only [String.append_assoc, String.append_right_inj] at heq
    obtain ⟨hab, heq⟩ := hda _ _ _ _ hb heq
    exact Or.inr ⟨id', b, c, v, rfl, hab, hc, heq⟩
  | not id' ha' =>
    simp only [hnot, String.append_assoc, String.append_right_inj] at heq
    exact absurd heq (ha.append_ne_not hnames _ _)

theorem and (hda : a.Delimits ps s) (ha : a.Shows ps s) (hdb : b.Delimits ps t) (id : NodeId) :
    (Condition.and id a b).Delimits ps ("(" ++ s ++ " and " ++ t ++ ")") := by
  intro a' t' x y h' heq
  simp only [String.append_assoc] at heq
  rcases hda.connective hnames ha h' heq with
    ⟨_, _, _, _, rfl, haa', hb', heq⟩ | ⟨_, _, _, _, rfl, _, _, heq⟩
  · obtain ⟨hbb', heq⟩ := hdb _ _ _ _ hb' ((String.append_right_inj _).1 heq)
    exact ⟨congrArg₂ (Condition.and 0) haa' hbb', (String.append_right_inj _).1 heq⟩
  · exact absurd heq (and_append_ne_or _ _)

theorem or (hda : a.Delimits ps s) (ha : a.Shows ps s) (hdb : b.Delimits ps t) (id : NodeId) :
    (Condition.or id a b).Delimits ps ("(" ++ s ++ " or " ++ t ++ ")") := by
  intro a' t' x y h' heq
  simp only [String.append_assoc] at heq
  rcases hda.connective hnames ha h' heq with
    ⟨_, _, _, _, rfl, _, _, heq⟩ | ⟨_, _, _, _, rfl, haa', hb', heq⟩
  · exact absurd heq.symm (and_append_ne_or _ _)
  · obtain ⟨hbb', heq⟩ := hdb _ _ _ _ hb' ((String.append_right_inj _).1 heq)
    exact ⟨congrArg₂ (Condition.or 0) haa' hbb', (String.append_right_inj _).1 heq⟩

theorem not (hda : a.Delimits ps s) (ha : a.Shows ps s) (id : NodeId) :
    (Condition.not id a).Delimits ps ("(not " ++ s ++ ")") := by
  have hnot : "(not " = "(" ++ "not " := by decide
  intro a' t x y h' heq
  cases h' with
  | call id' hc' _ =>
    obtain ⟨_, ⟨_, hcall⟩, _⟩ := hc'.eq_call hnames (.not id ha) heq.symm
    cases hcall
  | compare id' hc' _ _ _ _ =>
    simp only [comparisonText, hnot, String.append_assoc, String.append_right_inj] at heq
    exact absurd heq.symm (hc'.append_ne_not hnames _ _)
  | and id' ha' hb' | or id' ha' hb' =>
    simp only [hnot, String.append_assoc, String.append_right_inj] at heq
    exact absurd heq.symm (ha'.append_ne_not hnames _ _)
  | not id' ha' =>
    simp only [String.append_assoc, String.append_right_inj] at heq
    obtain ⟨haa', heq⟩ := hda _ _ _ _ ha' heq
    exact ⟨congrArg (Condition.not 0) haa', (String.append_right_inj _).1 heq⟩

end Condition.Delimits

/-- The text of a condition ends where the condition does. -/
theorem Condition.Shows.delimits {a : Condition} {s : String} (h : a.Shows ps s) :
    a.Delimits ps s := by
  induction h with
  | call id hc _ => exact hc.delimits hnames id
  | compare id hc hclass hop hlegal hvalue =>
    exact hc.delimits_compare hnames hclass hop hlegal hvalue id
  | and id ha _ iha ihb => exact iha.and hnames ha ihb id
  | or id ha _ iha ihb => exact iha.or hnames ha ihb id
  | not id ha ih => exact ih.not hnames ha id

/-! ### Blocks -/

/-- The block at the front of a text. -/
theorem Block.Shows.append_inj {b b' : Block} {s t x y : String} (h : b.Shows ps s)
    (h' : b'.Shows ps t) (heq : s ++ x = t ++ y) : b.unnumbered = b'.unnumbered ∧ x = y := by
  cases h with
  | @line id condition n _ _ hcondition hbody =>
    cases h' with
    | @line id' condition' n' _ _ hcondition' hbody' =>
      simp only [blockText, String.append_assoc, String.append_right_inj] at heq
      obtain ⟨hcc', heq⟩ := hcondition.delimits hnames _ _ _ _ hcondition' heq
      rw [String.append_right_inj] at heq
      obtain ⟨hnn', heq⟩ := hbody.append_inj hbody' rfl (ends_append (by decide) x)
        (ends_append (by decide) y) heq
      obtain rfl : n = n' := by injection hnn'
      exact ⟨congrArg (Block.mk 0 · n.toInt) hcc', (String.append_right_inj _).1 heq⟩

omit hnames in
/-- A block has a text. -/
theorem Block.Shows.ne_empty {b : Block} {s : String} (h : b.Shows ps s) (x : String) :
    s ++ x ≠ "" := by
  cases h with
  | line id _ _ =>
    intro heq
    have hchars := congrArg String.toList heq
    simp [blockText] at hchars

/-- Blocks with the same text are the same but for their numbers. -/
theorem map_unnumbered_eq_of_join_eq {blocks blocks' : List Block} {texts texts' : List String}
    (h : List.Forall₂ (Block.Shows ps) blocks texts)
    (h' : List.Forall₂ (Block.Shows ps) blocks' texts')
    (heq : String.join texts = String.join texts') :
    blocks.map Block.unnumbered = blocks'.map Block.unnumbered := by
  induction h generalizing blocks' texts' with
  | nil =>
    cases h' with
    | nil => rfl
    | cons hblock' _ =>
      rw [String.join_nil, String.join_cons] at heq
      exact absurd heq.symm (hblock'.ne_empty _)
  | cons hblock _ ih =>
    cases h' with
    | nil =>
      rw [String.join_nil, String.join_cons] at heq
      exact absurd heq (hblock.ne_empty _)
    | cons hblock' hblocks' =>
      rw [String.join_cons, String.join_cons] at heq
      obtain ⟨hbb', hrest⟩ := hblock.append_inj hnames hblock' heq
      rw [List.map_cons, List.map_cons, hbb', ih hblocks' hrest]

end Conditions

/-! ### Scripts -/

namespace Generator

/-- **The text determines the behaviour.**  Accepted scripts over one catalog of words that have the
same text have the same blocks but for numbers, and so make the same calls and come to the same
score or error for every action. -/
theorem blocks_eq_of_source_eq {S A : Type} {catalog : Catalog S A} {config config' : Config}
    {g g' : Generator S A} (hmake : make catalog config = .ok g)
    (hmake' : make catalog config' = .ok g')
    (hnames : ∀ p ∈ catalog.predicates, Declaration.isWord p.name = true) {t t' : Tree}
    {script script' : Script S A} (h : g.compileTree t = .ok script)
    (h' : g'.compileTree t' = .ok script') (hsource : script.source = script'.source) :
    script.blocks.map Block.unnumbered = script'.blocks.map Block.unnumbered ∧
      (script.blocks.length * 8 < 2 ^ (63 : Nat) → ∀ (s : S) (a : A),
        (script.score s a).calls = (script'.score s a).calls ∧
          (script.score s a).result = (script'.score s a).result) := by
  have hmade := make_eq_ok hmake
  have hmade' := make_eq_ok hmake'
  obtain ⟨_, _, hrender, hcompile⟩ := Script.assemble_eq_ok_iff.1 (compileTree_eq_ok_iff.1 h).2
  obtain ⟨_, _, hrender', hcompile'⟩ := Script.assemble_eq_ok_iff.1 (compileTree_eq_ok_iff.1 h').2
  rw [hmade.catalog_eq] at hcompile
  rw [hmade'.catalog_eq] at hcompile'
  obtain ⟨texts, htexts, hjoin⟩ := Tree.shows_compile hcompile hrender
  obtain ⟨texts', htexts', hjoin'⟩ := Tree.shows_compile hcompile' hrender'
  have hblocks := map_unnumbered_eq_of_join_eq hnames htexts htexts'
    (by rw [← hjoin, hsource, hjoin'])
  exact ⟨hblocks, fun hsmall s a =>
    hmade.score_congr hmade' (.compiled h) (.compiled h') hblocks hsmall s a⟩

end Generator

/-- The small script as a block of its own, with wrappers around its call and its body. -/
def Tree.smallBlock : Tree :=
  node 0 (.rule .block)
    [node 1 (.rule .condition) [node 1 (.rule .call)
      [node 2 (.rule (.predicate 0))
        [node 3 (.terminal (.name "stab")) [], node 3 (.terminal .action) []]]],
      node 4 (.rule .body) [node 8 (.rule .adjustment) [.three]]]

namespace Generator

/-- The small script and its block with wrappers have one text. -/
theorem blocks_eq_of_source_eq_small :
    ∃ g script script', make Catalog.small .default = .ok g ∧
      (∀ p ∈ Catalog.small.predicates, Declaration.isWord p.name = true) ∧
      g.compileTree (.small (.node 6 (.rule .adjustment) [.three])) = .ok script ∧
      g.compileTree .smallBlock = .ok script' ∧ script.source = script'.source ∧
      script.blocks.length * 8 < 2 ^ (63 : Nat) ∧
      script.blocks.map Block.unnumbered = script'.blocks.map Block.unnumbered ∧
      (script.score () ()).result = (script'.score () ()).result := by
  have hcompiles : (make Catalog.small .default).toOption.any (fun g =>
      (g.compileTree (.small (.node 6 (.rule .adjustment) [.three]))).toOption.any fun script =>
        (g.compileTree .smallBlock).toOption.any fun script' =>
          script.source == script'.source && script.blocks.length == 1) = true := by
    decide +kernel
  obtain ⟨g, hg, hcompiles⟩ := Result.exists_of_any hcompiles
  obtain ⟨script, hscript, hcompiles⟩ := Result.exists_of_any hcompiles
  obtain ⟨script', hscript', htest⟩ := Result.exists_of_any hcompiles
  rw [Bool.and_eq_true, beq_iff_eq, beq_iff_eq] at htest
  obtain ⟨hsource, hone⟩ := htest
  have hnames : ∀ p ∈ Catalog.small.predicates, Declaration.isWord p.name = true := by decide
  have hsmall : script.blocks.length * 8 < 2 ^ (63 : Nat) := by rw [hone]; decide
  obtain ⟨hblocks, hscore⟩ := blocks_eq_of_source_eq hg hg hnames hscript hscript' hsource
  exact ⟨g, script, script', hg, hnames, hscript, hscript', hsource, hsmall, hblocks,
    (hscore hsmall () ()).2⟩

end Generator

end ScoreScript
