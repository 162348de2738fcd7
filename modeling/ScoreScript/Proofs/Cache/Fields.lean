import Mathlib.Algebra.GroupWithZero.Nat
import ScoreScript.Cache.Field

/-!
# The cost of fields

What a reader makes of the bytes that its writer wrote, and what it pays for that.  The cost is
exact: with less in the budget the reader fails.  Budgets stay below `2 ^ 64`, and a number that its
field cannot hold costs as much as no budget has.

* `Reader.Makes` — bytes, the value made of them, and its cost;
* `Reader.Makes.bind`, `Reader.Makes.map` — one reader after another;
* `Field.readNumber_makes`, `Field.readText_makes` and the like — the fields.
-/

namespace ScoreScript

namespace Reader

variable {α β : Type}

/-- In front of any other bytes the reader makes the value of these bytes and pays the cost, or
fails when the budget is smaller. -/
def Makes (x : Reader α) (bytes : List UInt8) (value : α) (cost : Nat) : Prop :=
  ∀ rest budget, budget < 2 ^ (64 : Nat) →
    x ⟨bytes ++ rest, budget⟩ =
      if cost ≤ budget then some (value, ⟨rest, budget - cost⟩) else none

theorem Makes.pure (value : α) : (pure value : Reader α).Makes [] value 0 := by
  intro rest budget _
  rw [if_pos (Nat.zero_le budget)]
  rfl

/-- One reader after another makes what the second makes, of the bytes of both and at both costs. -/
theorem Makes.bind {x : Reader α} {f : α → Reader β} {bytes bytes' all : List UInt8} {value : α}
    {value' : β} {cost cost' total : Nat} (hx : x.Makes bytes value cost)
    (hf : (f value).Makes bytes' value' cost') (hbytes : bytes ++ bytes' = all)
    (htotal : cost + cost' = total) : (x >>= f).Makes all value' total := by
  intro rest budget hbudget
  show andThen x f _ = _
  rw [andThen, ← hbytes, ← htotal, List.append_assoc, hx _ _ hbudget]
  by_cases hfirst : cost ≤ budget
  · rw [if_pos hfirst]
    show f value _ = _
    rw [hf _ _ (by omega)]
    by_cases hsecond : cost' ≤ budget - cost
    · rw [if_pos hsecond, if_pos (by omega), Nat.sub_sub]
    · rw [if_neg hsecond, if_neg (by omega)]
  · rw [if_neg hfirst, if_neg (by omega)]

/-- A value that is wrapped costs no more than the value itself. -/
theorem Makes.map {x : Reader α} {bytes : List UInt8} {value : α} {cost : Nat}
    (hx : x.Makes bytes value cost) (f : α → β) :
    (x >>= fun value => Pure.pure (f value)).Makes bytes (f value) cost :=
  hx.bind (.pure (f value)) (List.append_nil bytes) (Nat.add_zero cost)

theorem claim_makes (cost : Nat) : (claim cost).Makes [] () cost := by
  intro rest budget _
  rfl

theorem take_makes (bytes : List UInt8) : (take bytes.length).Makes bytes bytes 0 := by
  intro rest budget _
  rw [if_pos (Nat.zero_le budget), take_append, Nat.sub_zero]

/-- As many values as asked for cost as much as all of them together. -/
theorem times_makes {x : Reader α} {write : α → List UInt8} {cost : α → Nat} {values : List α}
    (hx : ∀ value ∈ values, x.Makes (write value) value (cost value)) :
    (x.times values.length).Makes (values.flatMap write) values (values.map cost).sum := by
  induction values with
  | nil => exact Makes.pure []
  | cons value rest ih =>
    have hfirst := hx value List.mem_cons_self
    have hrest := ih fun other hother => hx other (List.mem_cons_of_mem _ hother)
    rw [List.flatMap_cons, List.map_cons, List.sum_cons]
    exact hfirst.bind (hrest.map _) rfl rfl

end Reader

namespace Field

/-! ### Numbers -/

/-- The cost of a number in a field of `width` bytes. -/
def numberCost (width n : Nat) : Nat :=
  if n < 256 ^ width then width else 2 ^ (64 : Nat)

theorem readNumber_of_claim {width budget : Nat} (h : ¬ width ≤ budget) (bytes : List UInt8) :
    readNumber width ⟨bytes, budget⟩ = none := by
  show Reader.andThen (Reader.claim width) _ _ = none
  rw [Reader.andThen, Reader.claim, if_neg h]

/-- A marker for more bytes than the field has is not accepted. -/
theorem readNumber_of_marker {width : Nat} {marker : UInt8} (hmarker : 251 ≤ marker)
    (hcount : ∀ count, markerWidth? marker = some count → ¬ count ≤ width) (bytes : List UInt8)
    (budget : Nat) : readNumber width ⟨marker :: bytes, budget⟩ = none := by
  by_cases hclaim : width ≤ budget
  · have hnot : ¬ marker < 251 := by
      rw [UInt8.lt_iff_toNat_lt]
      rw [UInt8.le_iff_toNat_le] at hmarker
      omega
    have hpaid : Reader.claim width ⟨marker :: bytes, budget⟩ =
        some ((), ⟨marker :: bytes, budget - width⟩) := if_pos hclaim
    show Reader.andThen (Reader.claim width) _ _ = none
    rw [Reader.andThen, hpaid]
    show Reader.andThen (Reader.take 1) _ _ = none
    rw [Reader.andThen, take_one]
    simp only [hnot, if_false]
    cases hwidth : markerWidth? marker with
    | none => rfl
    | some count =>
      simp only [if_neg (hcount count hwidth)]
      rfl
  · exact readNumber_of_claim hclaim _

theorem readNumber_of_large {width n : Nat} (hwidth : width = 4 ∨ width = 8) (hn : 256 ^ width ≤ n)
    (rest : List UInt8) (budget : Nat) :
    readNumber width ⟨writeNumber n ++ rest, budget⟩ = none := by
  have hlarge : 2 ^ (32 : Nat) ≤ n := by
    rcases hwidth with rfl | rfl <;> omega
  rw [writeNumber, if_neg (by omega), if_neg (by omega), if_neg (by omega)]
  split
  · -- eight bytes hold the number, so the field has four
    rcases hwidth with rfl | rfl
    · refine readNumber_of_marker (by decide) ?_ _ _
      intro count hcount
      rw [show markerWidth? 253 = some 8 from rfl, Option.some.injEq] at hcount
      omega
    · omega
  · refine readNumber_of_marker (by decide) ?_ _ _
    intro count hcount
    rw [show markerWidth? 254 = none from rfl] at hcount
    exact absurd hcount (by simp)

theorem readNumber_makes {width : Nat} (hwidth : width = 4 ∨ width = 8) (n : Nat) :
    (readNumber width).Makes (writeNumber n) n (numberCost width n) := by
  intro rest budget hbudget
  by_cases hn : n < 256 ^ width
  · rw [numberCost, if_pos hn]
    by_cases hclaim : width ≤ budget
    · rw [if_pos hclaim]
      exact readNumber_writeNumber hwidth hn hclaim rest
    · rw [if_neg hclaim]
      exact readNumber_of_claim hclaim _
  · rw [numberCost, if_neg hn, if_neg (by omega)]
    exact readNumber_of_large hwidth (by omega) rest budget

/-- A number behind a marker is made for the same cost, though it may need no marker. -/
theorem readNumber_makes_of_marker {width count n : Nat} {marker : UInt8} (hmarker : 251 ≤ marker)
    (hcount : markerWidth? marker = some count) (hwidth : count ≤ width) (hn : n < 256 ^ count) :
    (readNumber width).Makes (marker :: LittleEndian.encode count n) n width := by
  intro rest budget _
  by_cases hclaim : width ≤ budget
  · rw [if_pos hclaim]
    exact readNumber_marker hmarker hcount hwidth hn hclaim rest
  · rw [if_neg hclaim]
    exact readNumber_of_claim hclaim _

/-- A tag is a number that four bytes hold. -/
theorem readTag_makes {tag : Nat} (h : tag < 256 ^ (4 : Nat)) :
    (readNumber 4).Makes (writeNumber tag) tag 4 := by
  have hmakes := readNumber_makes (Or.inl rfl) tag
  rw [numberCost, if_pos h] at hmakes
  exact hmakes

theorem writeNumber_length_le {n : Nat} (h : n < 2 ^ (64 : Nat)) : (writeNumber n).length ≤ 9 := by
  rw [writeNumber]
  split
  · exact Nat.le_of_ble_eq_true rfl
  · split
    · exact Nat.le_of_ble_eq_true rfl
    · split
      · exact Nat.le_of_ble_eq_true rfl
      · exact Nat.le_of_ble_eq_true rfl

/-! ### Integers, patterns, flags -/

theorem interleave_lt (n : Int64) : interleave n.toInt < 256 ^ (8 : Nat) := by
  have hlo := n.le_toInt
  have hhi := n.toInt_lt
  unfold interleave
  split <;> omega

theorem readInteger_makes (n : Int64) : readInteger.Makes (writeInteger n) n 8 := by
  have hmakes := readNumber_makes (Or.inr rfl) (interleave n.toInt)
  rw [numberCost, if_pos (interleave_lt n)] at hmakes
  have h := hmakes.map fun m => Int64.ofInt (deinterleave m)
  rw [deinterleave_interleave, Int64.ofInt_toInt] at h
  exact h

theorem readPattern_makes (raw : UInt64) : readPattern.Makes (writePattern raw) raw 8 := by
  have htake := Reader.take_makes (LittleEndian.encode 8 raw.toNat)
  rw [LittleEndian.encode_length] at htake
  have hmap := htake.map fun bytes => UInt64.ofNat (LittleEndian.decode bytes)
  rw [LittleEndian.decode_encode_of_lt (UInt64.toNat_lt raw), UInt64.ofNat_toNat] at hmap
  exact (Reader.claim_makes 8).bind hmap rfl rfl

theorem readFlag_makes (b : Bool) : readFlag.Makes (writeFlag b) b 1 := by
  refine (Reader.claim_makes 1).bind ?_ (List.nil_append _) (Nat.add_zero 1)
  cases b with
  | false => exact (Reader.take_makes [0]).bind (.pure false) rfl rfl
  | true => exact (Reader.take_makes [1]).bind (.pure true) rfl rfl

/-! ### Texts and options -/

/-- The bytes of a text. -/
def textBytes (text : String) : List UInt8 :=
  text.toByteArray.data.toList

/-- The cost of a text. -/
def textCost (text : String) : Nat :=
  numberCost 8 (textBytes text).length + (textBytes text).length

theorem fromUTF8?_textBytes (text : String) :
    String.fromUTF8? ⟨(textBytes text).toArray⟩ = some text := by
  have hbytes : (⟨(textBytes text).toArray⟩ : ByteArray) = text.toByteArray := by
    rw [textBytes, Array.toArray_toList]
  rw [hbytes, String.fromUTF8?, dif_pos text.isValidUTF8]
  rfl

theorem readText_makes (text : String) : readText.Makes (writeText text) text (textCost text) := by
  refine (readNumber_makes (Or.inr rfl) (textBytes text).length).bind ?_ rfl rfl
  refine (Reader.claim_makes _).bind ?_ (List.nil_append _) (Nat.add_zero _)
  refine (Reader.take_makes (textBytes text)).bind ?_ (List.append_nil _) (Nat.add_zero 0)
  rw [fromUTF8?_textBytes]
  exact .pure text

/-- The cost of a value that may be missing. -/
def optionCost {α : Type} (cost : α → Nat) : Option α → Nat
  | none => 1
  | some value => 1 + cost value

theorem readOption_makes {α : Type} {read : Reader α} {write : α → List UInt8} {cost : α → Nat}
    (h : ∀ value, read.Makes (write value) value (cost value)) (value : Option α) :
    (readOption read).Makes (writeOption write value) value (optionCost cost value) := by
  cases value with
  | none => exact (readFlag_makes false).bind (.pure none) rfl rfl
  | some value => exact (readFlag_makes true).bind ((h value).map some) rfl rfl

end Field

end ScoreScript
