import Mathlib.Logic.Function.Basic
import ScoreScript.Cache.Payload
import ScoreScript.Proofs.Cache.Fields

/-!
# Fields that delimit themselves

What a field wrote can be told from whatever stands behind it, without knowing how it is read: two
fields that are written the same up to what follows hold the same value and are followed by the
same.  Numbers delimit themselves by their marker, texts by their length, everything else by the tag
in front of it.

* `Delimits` — writers of this sort;
* `Delimits.tagged`, `Delimits.flatMap` — values of several sorts, and several values;
* `Field.delimits_writeNumber`, `Field.delimits_writeText` and the like — the fields;
* `StoredLabel.delimits_write` — labels;
* `Payload.delimits_writeEntry` — the entries of a listing.
-/

namespace ScoreScript

/-- What is written tells the value and where it ends. -/
def Delimits {α : Type} (write : α → List UInt8) : Prop :=
  ∀ ⦃a b : α⦄ ⦃rest rest' : List UInt8⦄, write a ++ rest = write b ++ rest' → a = b ∧ rest = rest'

namespace Delimits

variable {α β : Type} {write : α → List UInt8}

/-- Values that are written as values of another type. -/
theorem comp (h : Delimits write) {f : β → α} (hf : Function.Injective f) :
    Delimits fun b => write (f b) := by
  intro a b rest rest' heq
  obtain ⟨hvalue, hrest⟩ := h heq
  exact ⟨hf hvalue, hrest⟩

/-- Values that all take the same number of bytes. -/
theorem of_length {count : Nat} (hlength : ∀ a, (write a).length = count)
    (hwrite : Function.Injective write) : Delimits write := by
  intro a b rest rest' heq
  obtain ⟨hbytes, hrest⟩ := List.append_inj heq (by rw [hlength, hlength])
  exact ⟨hwrite hbytes, hrest⟩

/-- As many values as are known to be there. -/
theorem flatMap (h : Delimits write) {xs ys : List α} {rest rest' : List UInt8}
    (hlength : xs.length = ys.length)
    (heq : xs.flatMap write ++ rest = ys.flatMap write ++ rest') : xs = ys ∧ rest = rest' := by
  induction xs generalizing ys with
  | nil =>
    obtain rfl := List.length_eq_zero_iff.1 hlength.symm
    exact ⟨rfl, heq⟩
  | cons x xs ih =>
    cases ys with
    | nil => cases hlength
    | cons y ys =>
      rw [List.flatMap_cons, List.flatMap_cons, List.append_assoc, List.append_assoc] at heq
      obtain ⟨rfl, hmore⟩ := h heq
      obtain ⟨rfl, hrest⟩ := ih (Nat.succ.inj hlength) hmore
      exact ⟨rfl, hrest⟩

end Delimits

namespace Field

/-! ### Numbers -/

/-- A number that fits into eight bytes is read back, so it delimits itself. -/
theorem writeNumber_inj_of_lt {a b : Nat} (ha : a < 2 ^ (64 : Nat)) {rest rest' : List UInt8}
    (h : writeNumber a ++ rest = writeNumber b ++ rest') : a = b ∧ rest = rest' := by
  have hread := readNumber_writeNumber (Or.inr rfl) ha (Nat.le_refl 8) rest
  rw [h] at hread
  by_cases hb : b < 2 ^ (64 : Nat)
  · rw [readNumber_writeNumber (Or.inr rfl) hb (Nat.le_refl 8) rest', Option.some.injEq,
      Prod.mk.injEq] at hread
    exact ⟨hread.1.symm, (congrArg Cursor.bytes hread.2).symm⟩
  · rw [readNumber_of_large (Or.inr rfl) (by omega)] at hread
    cases hread

theorem writeNumber_of_le {n : Nat} (h : 2 ^ (64 : Nat) ≤ n) :
    writeNumber n = 254 :: (LittleEndian.encode 8 n ++ writeNumber (n / 2 ^ (64 : Nat))) := by
  rw [writeNumber, if_neg (by omega), if_neg (by omega), if_neg (by omega), if_neg (by omega)]

theorem delimits_writeNumber : Delimits writeNumber := by
  intro a b rest rest' h
  induction a using Nat.strongRecOn generalizing b rest rest' with
  | ind a ih =>
    by_cases ha : a < 2 ^ (64 : Nat)
    · exact writeNumber_inj_of_lt ha h
    · by_cases hb : b < 2 ^ (64 : Nat)
      · obtain ⟨heq, hrest⟩ := writeNumber_inj_of_lt hb h.symm
        exact ⟨heq.symm, hrest.symm⟩
      · -- the lowest eight bytes agree, and what is left of the number is smaller
        rw [writeNumber_of_le (Nat.not_lt.1 ha), writeNumber_of_le (Nat.not_lt.1 hb),
          List.cons_append, List.cons_append, List.append_assoc, List.append_assoc] at h
        have hlengths : (LittleEndian.encode 8 a).length = (LittleEndian.encode 8 b).length := by
          rw [LittleEndian.encode_length, LittleEndian.encode_length]
        obtain ⟨hlow, hmore⟩ := List.append_inj (List.cons.inj h).2 hlengths
        have hmod := congrArg LittleEndian.decode hlow
        rw [LittleEndian.decode_encode, LittleEndian.decode_encode] at hmod
        obtain ⟨hdiv, hrest⟩ := ih (a / 2 ^ (64 : Nat)) (by omega) hmore
        exact ⟨by omega, hrest⟩

/-- Values of several sorts, with a number for the sort in front. -/
theorem delimits_tagged {α : Type} {write fields : α → List UInt8} {tag : α → Nat}
    (hwrite : ∀ a, write a = writeNumber (tag a) ++ fields a)
    (hfields : ∀ {a b rest rest'}, tag a = tag b → fields a ++ rest = fields b ++ rest' →
      a = b ∧ rest = rest') : Delimits write := by
  intro a b rest rest' h
  rw [hwrite, hwrite, List.append_assoc, List.append_assoc] at h
  obtain ⟨htag, hmore⟩ := delimits_writeNumber h
  exact hfields htag hmore

/-! ### The other fields -/

theorem interleave_injective : Function.Injective interleave := by
  intro a b h
  rw [← deinterleave_interleave a, h, deinterleave_interleave]

theorem delimits_writeInteger : Delimits writeInteger :=
  delimits_writeNumber.comp fun _ _ h => Int64.toInt_inj.1 (interleave_injective h)

theorem delimits_writePattern : Delimits writePattern := by
  refine .of_length (fun raw => LittleEndian.encode_length 8 raw.toNat) ?_
  intro a b h
  have hdecode := congrArg LittleEndian.decode h
  rw [writePattern, writePattern, LittleEndian.decode_encode_of_lt a.toNat_lt,
    LittleEndian.decode_encode_of_lt b.toNat_lt] at hdecode
  exact UInt64.toNat_inj.1 hdecode

theorem delimits_writeFlag : Delimits writeFlag := by
  have hlength : ∀ b, (writeFlag b).length = 1 := fun _ => rfl
  refine .of_length hlength ?_
  intro a b h
  cases a <;> cases b <;> first | rfl | cases h

theorem delimits_writeText : Delimits writeText := by
  intro a b rest rest' h
  have hsplit : ∀ text rest, writeText text ++ rest =
      writeNumber (textBytes text).length ++ (textBytes text ++ rest) :=
    fun text rest => List.append_assoc _ _ _
  rw [hsplit, hsplit] at h
  obtain ⟨hlength, hmore⟩ := delimits_writeNumber h
  obtain ⟨hbytes, hrest⟩ := List.append_inj hmore hlength
  have hread := fromUTF8?_textBytes a
  rw [hbytes, fromUTF8?_textBytes] at hread
  exact ⟨(Option.some.inj hread).symm, hrest⟩

theorem delimits_writeOption {α : Type} {write : α → List UInt8} (h : Delimits write) :
    Delimits (writeOption write) := by
  intro a b rest rest' heq
  cases a with
  | none =>
    cases b with
    | none => exact ⟨rfl, (delimits_writeFlag heq).2⟩
    | some y =>
      rw [writeOption, writeOption, List.append_assoc] at heq
      cases (delimits_writeFlag heq).1
  | some x =>
    rw [writeOption, List.append_assoc] at heq
    cases b with
    | none => cases (delimits_writeFlag heq).1
    | some y =>
      rw [writeOption, List.append_assoc] at heq
      obtain ⟨rfl, hrest⟩ := h (delimits_writeFlag heq).2
      exact ⟨rfl, hrest⟩

end Field

/-! ### Labels -/

namespace StoredLiteral

/-- The number in front of a stored literal. -/
def tag : StoredLiteral → Nat
  | bool _ => 0
  | int _ => 1
  | multiplier _ => 2
  | element _ => 3
  | weather _ => 4
  | status _ => 5
  | stat _ => 6

/-- What stands behind the tag of a stored literal. -/
def fields : StoredLiteral → List UInt8
  | bool value => Field.writeFlag value
  | int value => Field.writeInteger value
  | multiplier raw => Field.writePattern raw
  | element name => Field.writeText name
  | weather name => Field.writeOption Field.writeText name
  | status name => Field.writeOption Field.writeText name
  | stat name => Field.writeText name

theorem write_eq (literal : StoredLiteral) :
    literal.write = Field.writeNumber literal.tag ++ literal.fields := by
  cases literal <;> rfl

theorem delimits_write : Delimits write := by
  refine Field.delimits_tagged write_eq ?_
  intro a b rest rest' htag h
  have htexts := Field.delimits_writeOption Field.delimits_writeText
  cases a <;> cases b <;> cases htag
  case bool.bool => exact (Field.delimits_writeFlag h).imp (congrArg bool) id
  case int.int => exact (Field.delimits_writeInteger h).imp (congrArg int) id
  case multiplier.multiplier =>
    exact (Field.delimits_writePattern h).imp (congrArg multiplier) id
  case element.element => exact (Field.delimits_writeText h).imp (congrArg element) id
  case weather.weather => exact (htexts h).imp (congrArg weather) id
  case status.status => exact (htexts h).imp (congrArg status) id
  case stat.stat => exact (Field.delimits_writeText h).imp (congrArg stat) id

/-- A literal can be told from its stored form. -/
theorem ofLiteral_injective : Function.Injective ofLiteral := by
  intro a b h
  have hresolve := resolve_ofLiteral a
  rw [h, resolve_ofLiteral] at hresolve
  exact (Except.ok.inj hresolve).symm

end StoredLiteral

namespace StoredRule

/-- The number in front of a stored rule. -/
def tag : StoredRule → Nat
  | plain position => position
  | literal _ => 13
  | predicate _ => 14

/-- What stands behind the tag of a stored rule. -/
def fields : StoredRule → List UInt8
  | plain _ => []
  | literal name => Field.writeText name
  | predicate index => Field.writeNumber index

theorem write_eq (rule : StoredRule) :
    rule.write = Field.writeNumber rule.tag ++ rule.fields := by
  cases rule with
  | plain position => exact (List.append_nil _).symm
  | literal name => rfl
  | predicate index => rfl

theorem delimits_write : Delimits write := by
  refine Field.delimits_tagged write_eq ?_
  intro a b rest rest' htag h
  cases a <;> cases b <;> simp only [tag] at htag
  case plain.plain => exact ⟨congrArg plain (Fin.ext htag), h⟩
  case literal.literal => exact (Field.delimits_writeText h).imp (congrArg literal) id
  case predicate.predicate =>
    exact (Field.delimits_writeNumber h).imp (congrArg predicate) id
  all_goals omega

end StoredRule

namespace StoredLabel

/-- The number in front of a stored label. -/
def tag : StoredLabel → Nat
  | rule _ => 0
  | name _ => 1
  | state => 2
  | action => 3
  | op _ => 4
  | value _ => 5

/-- What stands behind the tag of a stored label. -/
def fields : StoredLabel → List UInt8
  | rule r => r.write
  | name text => Field.writeText text
  | state => []
  | action => []
  | op comparator => Field.writeNumber (comparatorTag comparator)
  | value literal => literal.write

theorem write_eq (label : StoredLabel) :
    label.write = Field.writeNumber label.tag ++ label.fields := by
  cases label with
  | state | action => exact (List.append_nil _).symm
  | rule | name | op | value => rfl

theorem comparatorTag_injective : Function.Injective comparatorTag := by
  intro a b h
  have hfound := all_getElem?_comparatorTag a
  rw [h, all_getElem?_comparatorTag] at hfound
  exact (Option.some.inj hfound).symm

theorem delimits_write : Delimits write := by
  refine Field.delimits_tagged write_eq ?_
  intro a b rest rest' htag h
  cases a <;> cases b <;> cases htag
  case rule.rule => exact (StoredRule.delimits_write h).imp (congrArg rule) id
  case name.name => exact (Field.delimits_writeText h).imp (congrArg name) id
  case state.state => exact ⟨rfl, h⟩
  case action.action => exact ⟨rfl, h⟩
  case op.op =>
    have htags := Field.delimits_writeNumber.comp comparatorTag_injective
    exact (htags h).imp (congrArg op) id
  case value.value => exact (StoredLiteral.delimits_write h).imp (congrArg value) id

end StoredLabel

theorem Payload.delimits_writeEntry : Delimits writeEntry := by
  intro a b rest rest' h
  rw [writeEntry, writeEntry, List.append_assoc, List.append_assoc] at h
  obtain ⟨hlabel, hmore⟩ := StoredLabel.delimits_write h
  obtain ⟨harity, hrest⟩ := Field.delimits_writeNumber hmore
  refine ⟨?_, hrest⟩
  cases a
  cases b
  exact congrArg₂ ListingEntry.mk hlabel harity

end ScoreScript
