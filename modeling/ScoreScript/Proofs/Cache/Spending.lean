import ScoreScript.Proofs.Cache.Payload

/-!
# What a reader spends

Bytes need not come from a writer: numbers may be longer than they have to be, and anything may
stand behind the last field.  Of whatever bytes a value is made, its reader spends the cost of the
value, which is what reading the value back from its own bytes takes.

* `Reader.Ensures` — what holds of a value and of the part of the budget that was spent on it;
* `Reader.Ensures.bind`, `Reader.times_ensures` — one reader after another;
* `StoredLabel.read_ensures`, `Payload.readEntry_ensures` — labels and entries;
* `Payload.cost_le_of_run` — what is read within a budget costs no more than the budget has.
-/

namespace ScoreScript

open ScoreScript.Field

namespace Reader

variable {α β : Type} {post : α → Nat → Prop}

/-- Whatever the bytes, what the reader makes of them has the property, together with the part of
the budget that was spent. -/
def Ensures (x : Reader α) (post : α → Nat → Prop) : Prop :=
  ∀ c value rest, x c = some (value, rest) →
    ∃ spent, c.budget = rest.budget + spent ∧ post value spent

theorem Ensures.mono {post' : α → Nat → Prop} {x : Reader α} (hx : x.Ensures post)
    (h : ∀ value spent, post value spent → post' value spent) : x.Ensures post' := by
  intro c value rest hread
  obtain ⟨spent, hspent, hpost⟩ := hx c value rest hread
  exact ⟨spent, hspent, h value spent hpost⟩

theorem Ensures.pure {value : α} (h : post value 0) : (pure value : Reader α).Ensures post := by
  intro c value' rest hread
  obtain ⟨rfl, rfl⟩ := Prod.mk.inj (Option.some.inj hread)
  exact ⟨0, rfl, h⟩

theorem Ensures.fail : (fail : Reader α).Ensures post := by
  intro c value rest hread
  cases hread

/-- What the second reader ensures may depend on what the first one made and spent. -/
theorem Ensures.bind {x : Reader α} {f : α → Reader β} {post' : β → Nat → Prop}
    (hx : x.Ensures post)
    (hf : ∀ value spent, post value spent →
      (f value).Ensures fun result spent' => post' result (spent + spent')) :
    (x >>= f).Ensures post' := by
  intro c result rest hread
  obtain ⟨value, mid, hfirst, hsecond⟩ := andThen_eq_some_iff.1 hread
  obtain ⟨spent, hspent, hpost⟩ := hx c value mid hfirst
  obtain ⟨spent', hspent', hpost'⟩ := hf value spent hpost mid result rest hsecond
  exact ⟨spent + spent', by omega, hpost'⟩

/-- A value is wrapped for nothing. -/
theorem Ensures.map {x : Reader α} {f : α → β} {post' : β → Nat → Prop} (hx : x.Ensures post)
    (h : ∀ value spent, post value spent → post' (f value) spent) :
    (x >>= fun value => Pure.pure (f value)).Ensures post' :=
  hx.bind fun value spent hpost => .pure (h value spent hpost)

theorem claim_ensures (cost : Nat) : (claim cost).Ensures fun _ spent => spent = cost := by
  intro c value rest hread
  rw [claim] at hread
  split at hread
  · rename_i hbudget
    obtain ⟨_, rfl⟩ := Prod.mk.inj (Option.some.inj hread)
    exact ⟨cost, (Nat.sub_add_cancel hbudget).symm, rfl⟩
  · cases hread

theorem length_of_takeExact {count : Nat} {xs taken rest : List α}
    (h : takeExact count xs = some (taken, rest)) : taken.length = count := by
  fun_induction takeExact count xs generalizing taken rest with
  | case1 xs =>
    obtain ⟨rfl, _⟩ := Prod.mk.inj (Option.some.inj h)
    rfl
  | case2 => cases h
  | case3 count x xs ih =>
    obtain ⟨⟨taken', rest'⟩, htaken, heq⟩ := Option.map_eq_some_iff.1 h
    obtain ⟨rfl, _⟩ := Prod.mk.inj heq
    rw [List.length_cons, ih htaken]

theorem take_ensures (count : Nat) :
    (take count).Ensures fun bytes spent => bytes.length = count ∧ spent = 0 := by
  intro c value rest hread
  rw [take] at hread
  split at hread
  · cases hread
  · rename_i taken left htake
    obtain ⟨rfl, rfl⟩ := Prod.mk.inj (Option.some.inj hread)
    exact ⟨0, rfl, length_of_takeExact htake, rfl⟩

theorem times_ensures {x : Reader α} {cost : α → Nat}
    (hx : x.Ensures fun value spent => spent = cost value) (count : Nat) :
    (x.times count).Ensures fun values spent =>
      values.length = count ∧ spent = (values.map cost).sum := by
  induction count with
  | zero => exact .pure ⟨rfl, rfl⟩
  | succ count ih =>
    refine hx.bind ?_
    intro first spent hfirst
    refine ih.map ?_
    intro others spent' hothers
    obtain ⟨hlength, hspent⟩ := hothers
    rw [List.length_cons, List.map_cons, List.sum_cons, hlength, hfirst, hspent]
    exact ⟨rfl, rfl⟩

end Reader

namespace Field

open ScoreScript.Reader

/-- A number is one that its field holds, however long it was written. -/
theorem readNumber_ensures {width : Nat} (hwidth : 1 ≤ width) :
    (readNumber width).Ensures fun n spent => n < 256 ^ width ∧ spent = width := by
  have hpow : ∀ {count}, count ≤ width → 256 ^ count ≤ 256 ^ width :=
    fun hcount => Nat.pow_le_pow_right (by decide) hcount
  refine (claim_ensures width).bind ?_
  intro _ spent hspent
  refine (take_ensures 1).bind ?_
  intro bytes free hfree
  obtain ⟨-, rfl⟩ := hfree
  subst hspent
  split
  · rename_i first
    split
    · have hfirst := first.toNat_lt
      have hone := hpow hwidth
      exact .pure ⟨by omega, rfl⟩
    · split
      · exact .fail
      · rename_i count hcount
        split
        · rename_i hle
          refine (take_ensures count).map ?_
          intro taken free htaken
          obtain ⟨hlength, rfl⟩ := htaken
          have hlt := LittleEndian.decode_lt taken
          rw [hlength] at hlt
          exact ⟨Nat.lt_of_lt_of_le hlt (hpow hle), rfl⟩
        · exact .fail
  · exact .fail

theorem numberCost_of_lt {width n : Nat} (h : n < 256 ^ width) : numberCost width n = width :=
  if_pos h

/-- A number that is cut off costs no more. -/
theorem numberCost_mod_le (n : Nat) : numberCost 4 (n % 2 ^ (32 : Nat)) ≤ numberCost 4 n := by
  have hlt : n % 2 ^ (32 : Nat) < 256 ^ (4 : Nat) := Nat.mod_lt n (by decide)
  rw [numberCost_of_lt hlt, numberCost]
  split
  · exact Nat.le_refl 4
  · decide

theorem readInteger_ensures : readInteger.Ensures fun _ spent => spent = 8 :=
  (readNumber_ensures (by decide)).map fun _ _ h => h.2

theorem readPattern_ensures : readPattern.Ensures fun _ spent => spent = 8 := by
  refine (claim_ensures 8).bind ?_
  intro _ spent hspent
  refine (take_ensures 8).map ?_
  intro _ free hfree
  rw [hspent, hfree.2]

theorem readFlag_ensures : readFlag.Ensures fun _ spent => spent = 1 := by
  refine (claim_ensures 1).bind ?_
  intro _ spent hspent
  refine (take_ensures 1).bind ?_
  intro bytes free hfree
  have htotal : spent + (free + 0) = 1 := by
    rw [hspent, hfree.2]
  split
  · exact .pure htotal
  · exact .pure htotal
  · exact .fail

/-- A text has the bytes that it was made of. -/
theorem textBytes_of_fromUTF8? {bytes : List UInt8} {text : String}
    (h : String.fromUTF8? ⟨bytes.toArray⟩ = some text) : textBytes text = bytes := by
  rw [String.fromUTF8?] at h
  split at h
  · obtain rfl := Option.some.inj h
    rfl
  · cases h

theorem readText_ensures : readText.Ensures fun text spent => spent = textCost text := by
  refine (readNumber_ensures (by decide)).bind ?_
  intro count spent hcount
  refine (claim_ensures count).bind ?_
  intro _ paid hpaid
  refine (take_ensures count).bind ?_
  intro bytes free hbytes
  obtain ⟨hlt, rfl⟩ := hcount
  obtain ⟨hlength, rfl⟩ := hbytes
  subst hpaid
  split
  · rename_i text htext
    have htextBytes := textBytes_of_fromUTF8? htext
    refine .pure ?_
    rw [textCost, htextBytes, hlength, numberCost_of_lt hlt]
    rfl
  · exact .fail

theorem readOption_ensures {α : Type} {read : Reader α} {cost : α → Nat}
    (h : read.Ensures fun value spent => spent = cost value) :
    (readOption read).Ensures fun value spent => spent = optionCost cost value := by
  refine readFlag_ensures.bind ?_
  intro present spent hspent
  subst hspent
  cases present with
  | false => exact .pure rfl
  | true => exact h.map fun value paid hpaid => by rw [hpaid, optionCost]

end Field

open ScoreScript.Reader

/-! ### Labels -/

/-- A tag costs four, whichever it is. -/
theorem Field.readTag_ensures : (readNumber 4).Ensures fun _ spent => spent = 4 :=
  (readNumber_ensures (by decide)).mono fun _ _ h => h.2

theorem StoredLiteral.read_ensures : read.Ensures fun v spent => spent = v.cost := by
  refine readTag_ensures.bind ?_
  intro tag spent hspent
  subst hspent
  split
  · exact readFlag_ensures.map fun _ _ h => by rw [h, cost]
  · exact readInteger_ensures.map fun _ _ h => by rw [h, cost]
  · exact readPattern_ensures.map fun _ _ h => by rw [h, cost]
  · exact readText_ensures.map fun _ _ h => by rw [h, cost]
  · exact (readOption_ensures readText_ensures).map fun _ _ h => by rw [h, cost]
  · exact (readOption_ensures readText_ensures).map fun _ _ h => by rw [h, cost]
  · exact readText_ensures.map fun _ _ h => by rw [h, cost]
  · exact .fail

theorem StoredRule.read_ensures : read.Ensures fun r spent => spent = r.cost := by
  refine readTag_ensures.bind ?_
  intro tag spent hspent
  subst hspent
  split
  · exact .pure rfl
  split
  · exact readText_ensures.map fun _ _ h => by rw [h, cost]
  split
  · refine (readNumber_ensures (by decide)).map ?_
    intro index _ h
    rw [cost, numberCost_of_lt h.1, h.2]
  · exact .fail

theorem StoredLabel.readComparator_ensures : readComparator.Ensures fun _ spent => spent = 4 := by
  refine readTag_ensures.bind ?_
  intro tag spent hspent
  subst hspent
  split
  · exact .pure rfl
  · exact .fail

/-- On a label its cost is spent. -/
theorem StoredLabel.read_ensures : read.Ensures fun label spent => spent = label.cost := by
  refine readTag_ensures.bind ?_
  intro tag spent hspent
  subst hspent
  split
  · exact StoredRule.read_ensures.map fun _ _ h => by rw [h, cost]
  · exact readText_ensures.map fun _ _ h => by rw [h, cost]
  · exact .pure rfl
  · exact .pure rfl
  · exact readComparator_ensures.map fun _ _ h => by rw [h, cost]
  · exact StoredLiteral.read_ensures.map fun _ _ h => by rw [h, cost]
  · exact .fail

/-! ### Payloads -/

namespace Payload

theorem readEntry_ensures : readEntry.Ensures fun entry spent => spent = entryCost entry := by
  refine StoredLabel.read_ensures.bind ?_
  intro label spent hspent
  subst hspent
  refine (readNumber_ensures (by decide)).map ?_
  intro arity _ h
  rw [entryCost, numberCost_of_lt h.1, h.2]

theorem read_ensures : read.Ensures fun p spent => spent = p.cost := by
  refine (readNumber_ensures (by decide)).bind ?_
  intro nodes spent hnodes
  refine (claim_ensures 32).bind ?_
  intro _ paid hpaid
  refine (take_ensures 32).bind ?_
  intro digest free hdigest
  refine (readNumber_ensures (by decide)).bind ?_
  intro count spent' hcount
  refine (times_ensures readEntry_ensures count).map ?_
  intro listing spent'' hlisting
  obtain ⟨hnodes, rfl⟩ := hnodes
  obtain ⟨hcount, rfl⟩ := hcount
  obtain ⟨_, rfl⟩ := hdigest
  obtain ⟨hlength, rfl⟩ := hlisting
  rw [cost, numberCost_of_lt hnodes, hlength, numberCost_of_lt hcount, hpaid, Nat.zero_add]

/-- **Spending.**  What is read within a budget costs no more than the budget has, from whichever
bytes it was read. -/
theorem cost_le_of_run {budget : Nat} {bytes : List UInt8} {p : Payload}
    (h : read.run budget bytes = some p) : p.cost ≤ budget := by
  obtain ⟨⟨p', rest⟩, hread, rfl⟩ := Option.map_eq_some_iff.1 h
  obtain ⟨spent, hspent, rfl⟩ := read_ensures ⟨bytes, budget⟩ p' rest hread
  show p'.cost ≤ budget
  rw [show budget = rest.budget + p'.cost from hspent]
  exact Nat.le_add_left _ _

end Payload

end ScoreScript
