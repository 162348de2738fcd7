import ScoreScript.Cache.Payload
import ScoreScript.Proofs.Cache.Fields

/-!
# The cost of payloads

What a payload costs to read, and that it is read back exactly when the budget has that much.

* `StoredLabel.cost`, `Payload.cost` — the costs;
* `StoredLabel.read_makes` — a label is read back for its cost;
* `Payload.run_read_write` — a payload is read back, or the budget is too small;
* `Payload.length_write_lt` — a payload within the budget fits into an envelope.
-/

namespace ScoreScript

open ScoreScript.Field ScoreScript.Reader

/-! ### Labels -/

/-- The cost of a stored literal. -/
def StoredLiteral.cost : StoredLiteral → Nat
  | bool _ => 4 + 1
  | int _ => 4 + 8
  | multiplier _ => 4 + 8
  | element name => 4 + textCost name
  | weather name => 4 + optionCost textCost name
  | status name => 4 + optionCost textCost name
  | stat name => 4 + textCost name

/-- The cost of a stored rule. -/
def StoredRule.cost : StoredRule → Nat
  | plain _ => 4
  | literal kindName => 4 + textCost kindName
  | predicate index => 4 + numberCost 8 index

/-- The cost of a stored label. -/
def StoredLabel.cost : StoredLabel → Nat
  | rule r => 4 + r.cost
  | name text => 4 + textCost text
  | state => 4
  | action => 4
  | op _ => 4 + 4
  | value literal => 4 + literal.cost

theorem StoredLiteral.read_makes (v : StoredLiteral) : read.Makes v.write v v.cost := by
  have htag : ∀ tag : Nat, tag < 256 ^ (4 : Nat) → (readNumber 4).Makes (writeNumber tag) tag 4 :=
    fun tag => readTag_makes
  cases v with
  | bool value => exact (htag 0 (by decide)).bind ((readFlag_makes value).map _) rfl rfl
  | int value => exact (htag 1 (by decide)).bind ((readInteger_makes value).map _) rfl rfl
  | multiplier raw => exact (htag 2 (by decide)).bind ((readPattern_makes raw).map _) rfl rfl
  | element name => exact (htag 3 (by decide)).bind ((readText_makes name).map _) rfl rfl
  | weather name =>
    exact (htag 4 (by decide)).bind ((readOption_makes readText_makes name).map _) rfl rfl
  | status name =>
    exact (htag 5 (by decide)).bind ((readOption_makes readText_makes name).map _) rfl rfl
  | stat name => exact (htag 6 (by decide)).bind ((readText_makes name).map _) rfl rfl

theorem StoredRule.read_makes (r : StoredRule) : read.Makes r.write r r.cost := by
  cases r with
  | plain position =>
    have htag := readTag_makes (show (position : Nat) < 256 ^ (4 : Nat) by omega)
    refine htag.bind ?_ (List.append_nil _) (Nat.add_zero 4)
    rw [dif_pos position.isLt]
    exact .pure _
  | literal kindName =>
    exact (readTag_makes (show 13 < 256 ^ (4 : Nat) by decide)).bind
      ((readText_makes kindName).map _)
      rfl rfl
  | predicate index =>
    exact (readTag_makes (show 14 < 256 ^ (4 : Nat) by decide)).bind
      ((readNumber_makes (Or.inr rfl) index).map _) rfl rfl

theorem StoredLabel.readComparator_makes (op : Comparator) :
    readComparator.Makes (writeNumber (comparatorTag op)) op 4 := by
  have htag : comparatorTag op < 256 ^ (4 : Nat) := by
    cases op <;> decide
  refine (readTag_makes htag).bind ?_ (List.append_nil _) (Nat.add_zero 4)
  rw [all_getElem?_comparatorTag]
  exact .pure op

/-- A label is read back for its cost. -/
theorem StoredLabel.read_makes (label : StoredLabel) :
    read.Makes label.write label label.cost := by
  have htag : ∀ tag : Nat, tag < 256 ^ (4 : Nat) → (readNumber 4).Makes (writeNumber tag) tag 4 :=
    fun tag => readTag_makes
  cases label with
  | rule r => exact (htag 0 (by decide)).bind (r.read_makes.map _) rfl rfl
  | name text => exact (htag 1 (by decide)).bind ((readText_makes text).map _) rfl rfl
  | state => exact (htag 2 (by decide)).bind (.pure state) (List.append_nil _) rfl
  | action => exact (htag 3 (by decide)).bind (.pure action) (List.append_nil _) rfl
  | op comparator =>
    exact (htag 4 (by decide)).bind ((readComparator_makes comparator).map _) rfl rfl
  | value literal => exact (htag 5 (by decide)).bind (literal.read_makes.map _) rfl rfl

namespace Payload

/-! ### Payloads -/

/-- The cost of an entry. -/
def entryCost (entry : ListingEntry) : Nat :=
  entry.label.cost + numberCost 4 entry.arity

/-- The cost of a payload. -/
def cost (p : Payload) : Nat :=
  numberCost 8 p.nodes + (32 + (numberCost 8 p.listing.length + (p.listing.map entryCost).sum))

theorem readEntry_makes (entry : ListingEntry) :
    readEntry.Makes (writeEntry entry) entry (entryCost entry) :=
  entry.label.read_makes.bind ((readNumber_makes (Or.inl rfl) entry.arity).map _) rfl rfl

/-- The payload is made whichever way its number of nodes is written. -/
theorem read_makes_of {p : Payload} {bytes : List UInt8} {nodesCost : Nat}
    (hnodes : (readNumber 8).Makes bytes p.nodes nodesCost) (hdigest : p.digest.length = 32) :
    read.Makes
      (bytes ++ (p.digest ++ (writeNumber p.listing.length ++ p.listing.flatMap writeEntry))) p
      (nodesCost + (32 + (numberCost 8 p.listing.length + (p.listing.map entryCost).sum))) := by
  have hlisting := (times_makes fun entry (_ : entry ∈ p.listing) => readEntry_makes entry).map
    fun listing => (⟨p.nodes, p.digest, listing⟩ : Payload)
  have hcount := readNumber_makes (Or.inr rfl) p.listing.length
  have htake := take_makes p.digest
  rw [hdigest] at htake
  refine hnodes.bind ?_ rfl rfl
  refine (claim_makes 32).bind ?_ (List.nil_append _) rfl
  refine htake.bind ?_ rfl (Nat.zero_add _)
  exact hcount.bind hlisting rfl rfl

theorem write_eq (p : Payload) :
    p.write = writeNumber p.nodes ++
      (p.digest ++ (writeNumber p.listing.length ++ p.listing.flatMap writeEntry)) := by
  rw [write, List.append_assoc, List.append_assoc]

theorem read_makes {p : Payload} (hdigest : p.digest.length = 32) :
    read.Makes p.write p p.cost := by
  rw [write_eq]
  exact read_makes_of (readNumber_makes (Or.inr rfl) p.nodes) hdigest

/-- **Payloads.**  Within a budget, a payload is read back if the budget has its cost, and not at
all otherwise. -/
theorem run_read_write {p : Payload} (hdigest : p.digest.length = 32) {budget : Nat}
    (hbudget : budget < 2 ^ (64 : Nat)) :
    read.run budget p.write = if p.cost ≤ budget then some p else none := by
  have h := read_makes hdigest [] budget hbudget
  rw [List.append_nil] at h
  rw [Reader.run, h]
  split <;> rfl

end Payload

/-! ### Lengths -/

/-- The bytes take up no more than three for each unit of a cost that some budget has. -/
def Short (bytes : List UInt8) (cost : Nat) : Prop :=
  cost < 2 ^ (64 : Nat) → bytes.length ≤ 3 * cost

namespace Short

theorem append {bytes bytes' : List UInt8} {cost cost' : Nat} (h : Short bytes cost)
    (h' : Short bytes' cost') : Short (bytes ++ bytes') (cost + cost') := by
  intro hcost
  have hfirst := h (by omega)
  have hsecond := h' (by omega)
  rw [List.length_append]
  omega

theorem flatMap {α : Type} {write : α → List UInt8} {cost : α → Nat}
    (h : ∀ value, Short (write value) (cost value)) (values : List α) :
    Short (values.flatMap write) (values.map cost).sum := by
  induction values with
  | nil => exact fun _ => Nat.le_refl 0
  | cons value rest ih =>
    rw [List.flatMap_cons, List.map_cons, List.sum_cons]
    exact (h value).append ih

theorem number {width : Nat} (hwidth : width = 4 ∨ width = 8) (n : Nat) :
    Short (writeNumber n) (numberCost width n) := by
  intro hcost
  rw [numberCost] at hcost ⊢
  split at hcost
  · rename_i hn
    have hlength : (writeNumber n).length ≤ 9 :=
      writeNumber_length_le (by rcases hwidth with rfl | rfl <;> omega)
    rw [if_pos hn]
    rcases hwidth with rfl | rfl <;> omega
  · exact absurd hcost (Nat.lt_irrefl _)

theorem tag {n : Nat} (h : n < 251) : Short (writeNumber n) 4 := by
  intro _
  rw [writeNumber, if_pos h]
  exact Nat.le_of_ble_eq_true rfl

theorem text (s : String) : Short (writeText s) (textCost s) :=
  (number (Or.inr rfl) _).append fun _ => Nat.le_mul_of_pos_left _ (by decide)

theorem option (name : Option String) :
    Short (writeOption writeText name) (optionCost textCost name) := by
  have hflag : ∀ b, Short (writeFlag b) 1 := fun _ _ => Nat.le_of_ble_eq_true rfl
  cases name with
  | none => exact hflag false
  | some s => exact (hflag true).append (text s)

theorem literal (v : StoredLiteral) : Short v.write v.cost := by
  cases v with
  | bool value => exact (tag (by decide)).append fun _ => Nat.le_of_ble_eq_true rfl
  | int value =>
    have hinteger := number (Or.inr rfl) (interleave value.toInt)
    rw [numberCost, if_pos (interleave_lt value)] at hinteger
    exact (tag (by decide)).append hinteger
  | multiplier raw => exact (tag (by decide)).append fun _ => Nat.le_of_ble_eq_true rfl
  | element name => exact (tag (by decide)).append (text name)
  | weather name => exact (tag (by decide)).append (option name)
  | status name => exact (tag (by decide)).append (option name)
  | stat name => exact (tag (by decide)).append (text name)

theorem rule (r : StoredRule) : Short r.write r.cost := by
  cases r with
  | plain position => exact tag (by omega)
  | literal kindName => exact (tag (by decide)).append (text kindName)
  | predicate index => exact (tag (by decide)).append (number (Or.inr rfl) index)

theorem label (l : StoredLabel) : Short l.write l.cost := by
  cases l with
  | rule r => exact (tag (by decide)).append (rule r)
  | name s => exact (tag (by decide)).append (text s)
  | state => exact tag (by decide)
  | action => exact tag (by decide)
  | op comparator =>
    have htag : StoredLabel.comparatorTag comparator < 251 := by
      cases comparator <;> decide
    exact (tag (by decide)).append (tag htag)
  | value v => exact (tag (by decide)).append (literal v)

end Short

namespace Payload

theorem short_write {p : Payload} (hdigest : p.digest.length = 32) : Short p.write p.cost := by
  have hnodes := Short.number (Or.inr rfl) p.nodes
  have hdigest' : Short p.digest 32 := by
    intro _
    omega
  have hcount := Short.number (Or.inr rfl) p.listing.length
  have hentries := Short.flatMap (fun entry : ListingEntry =>
    (Short.label entry.label).append (Short.number (Or.inl rfl) entry.arity)) p.listing
  have h := hnodes.append (hdigest'.append (hcount.append hentries))
  rw [← List.append_assoc, ← List.append_assoc] at h
  exact h

/-- A payload within the budget fits into an envelope. -/
theorem length_write_lt {p : Payload} (hdigest : p.digest.length = 32) (hcost : p.cost ≤ budget) :
    p.write.length < 2 ^ (32 : Nat) := by
  have hbudget : p.cost ≤ 2 ^ (24 : Nat) := hcost
  have h := short_write hdigest (by omega)
  omega

end Payload

end ScoreScript
