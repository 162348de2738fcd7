import ScoreScript.Cache.Reader

/-!
# Fields of the cache format

Numbers take one byte up to 250.  A greater number takes a marker and two, four or eight bytes, as
few as hold it.  Integers are interleaved, the nonnegative ones becoming even and the negative ones
odd numbers.  A text is the number of its bytes followed by them.

* `Field.writeNumber`, `Field.readNumber` — numbers; `Field.readNumber_writeNumber` ties the two;
* `Field.writeInteger`, `Field.writePattern`, `Field.writeText`, `Field.writeOption` and their
  readers — the other fields;
* `Field.deinterleave_interleave` — an integer is found again from its number.
-/

namespace ScoreScript.Field

/-! ### Numbers -/

/-- A number.  One that needs more than eight bytes has a marker of its own, which no reader
accepts, followed by its lowest eight bytes and the rest. -/
def writeNumber (n : Nat) : List UInt8 :=
  if n < 251 then [UInt8.ofNat n]
  else if n < 2 ^ (16 : Nat) then 251 :: LittleEndian.encode 2 n
  else if n < 2 ^ (32 : Nat) then 252 :: LittleEndian.encode 4 n
  else if n < 2 ^ (64 : Nat) then 253 :: LittleEndian.encode 8 n
  else 254 :: (LittleEndian.encode 8 n ++ writeNumber (n / 2 ^ (64 : Nat)))
termination_by n
decreasing_by omega

/-- How many bytes follow a marker. -/
def markerWidth? (marker : UInt8) : Option Nat :=
  if marker = 251 then some 2
  else if marker = 252 then some 4
  else if marker = 253 then some 8
  else none

/-- A number of at most `width` bytes; it pays for all of them. -/
def readNumber (width : Nat) : Reader Nat := do
  .claim width
  match ← Reader.take 1 with
  | [first] =>
    if first < 251 then return first.toNat
    else
      match markerWidth? first with
      | none => Reader.fail
      | some count =>
        if count ≤ width then return LittleEndian.decode (← Reader.take count) else Reader.fail
  | _ => Reader.fail

theorem take_one (b : UInt8) (rest : List UInt8) (budget : Nat) :
    Reader.take 1 ⟨b :: rest, budget⟩ = some ([b], ⟨rest, budget⟩) := rfl

theorem readNumber_marker {width count : Nat} {marker : UInt8} (hmarker : 251 ≤ marker)
    (hcount : markerWidth? marker = some count) (hwidth : count ≤ width) {n budget : Nat}
    (hn : n < 256 ^ count) (hbudget : width ≤ budget) (rest : List UInt8) :
    readNumber width ⟨marker :: (LittleEndian.encode count n ++ rest), budget⟩ =
      some (n, ⟨rest, budget - width⟩) := by
  have hclaim : Reader.claim width ⟨marker :: (LittleEndian.encode count n ++ rest), budget⟩ =
      some ((), ⟨marker :: (LittleEndian.encode count n ++ rest), budget - width⟩) := by
    simp [Reader.claim, hbudget]
  have hnot : ¬ marker < 251 := by
    rw [UInt8.lt_iff_toNat_lt]
    rw [UInt8.le_iff_toNat_le] at hmarker
    omega
  have htake := Reader.take_append (LittleEndian.encode count n) rest (budget - width)
  rw [LittleEndian.encode_length] at htake
  rw [readNumber, Reader.andThen_eq_some_iff]
  refine ⟨(), _, hclaim, ?_⟩
  rw [Reader.andThen_eq_some_iff]
  refine ⟨_, _, take_one _ _ _, ?_⟩
  simp only [hnot, if_false, hcount, hwidth, if_true]
  rw [Reader.andThen_eq_some_iff]
  refine ⟨_, _, htake, ?_⟩
  show some _ = some _
  rw [LittleEndian.decode_encode_of_lt hn]

theorem readNumber_writeNumber {width n budget : Nat} (hwidth : width = 4 ∨ width = 8)
    (hn : n < 256 ^ width) (hbudget : width ≤ budget) (rest : List UInt8) :
    readNumber width ⟨writeNumber n ++ rest, budget⟩ = some (n, ⟨rest, budget - width⟩) := by
  rw [writeNumber]
  split
  · rename_i hsmall
    have hbyte : (UInt8.ofNat n).toNat = n := UInt8.toNat_ofNat_of_lt' (Nat.lt_trans hsmall (by decide))
    have hclaim : Reader.claim width ⟨[UInt8.ofNat n] ++ rest, budget⟩ =
        some ((), ⟨UInt8.ofNat n :: rest, budget - width⟩) := by
      simp [Reader.claim, hbudget]
    have hlt : UInt8.ofNat n < 251 := by
      rw [UInt8.lt_iff_toNat_lt, hbyte]
      exact hsmall
    rw [readNumber, Reader.andThen_eq_some_iff]
    refine ⟨(), _, hclaim, ?_⟩
    rw [Reader.andThen_eq_some_iff]
    refine ⟨_, _, take_one _ _ _, ?_⟩
    simp only [hlt, if_true]
    show some _ = some _
    rw [hbyte]
  · split
    · exact readNumber_marker (by decide) rfl (by omega) (by omega) hbudget rest
    · split
      · exact readNumber_marker (by decide) rfl (by omega) (by omega) hbudget rest
      · split
        · rename_i hbig _ hlt
          rcases hwidth with rfl | rfl
          · omega
          · exact readNumber_marker (by decide) rfl (by omega) (by omega) hbudget rest
        · rename_i hbig
          rcases hwidth with rfl | rfl <;> omega

/-! ### Integers -/

/-- The number of an integer: twice it, or one less than twice its absolute value. -/
def interleave (n : Int) : Nat :=
  if 0 ≤ n then 2 * n.natAbs else 2 * n.natAbs - 1

/-- The integer of a number. -/
def deinterleave (n : Nat) : Int :=
  if n % 2 = 0 then (n / 2 : Nat) else -((n / 2 : Nat) : Int) - 1

theorem deinterleave_interleave (n : Int) : deinterleave (interleave n) = n := by
  unfold deinterleave interleave
  split <;> split <;> omega

/-- An integer. -/
def writeInteger (n : Int64) : List UInt8 :=
  writeNumber (interleave n.toInt)

/-- An integer. -/
def readInteger : Reader Int64 := do
  let n ← readNumber 8
  return Int64.ofInt (deinterleave n)

/-! ### Patterns, flags and texts -/

/-- A binary64 pattern. -/
def writePattern (raw : UInt64) : List UInt8 :=
  LittleEndian.encode 8 raw.toNat

/-- A binary64 pattern. -/
def readPattern : Reader UInt64 := do
  .claim 8
  let bytes ← Reader.take 8
  return UInt64.ofNat (LittleEndian.decode bytes)

/-- A truth value. -/
def writeFlag (b : Bool) : List UInt8 :=
  [if b then 1 else 0]

/-- A truth value; bytes other than 0 and 1 are none. -/
def readFlag : Reader Bool := do
  .claim 1
  match ← Reader.take 1 with
  | [0] => return false
  | [1] => return true
  | _ => Reader.fail

/-- A text. -/
def writeText (text : String) : List UInt8 :=
  let bytes := text.toByteArray.data.toList
  writeNumber bytes.length ++ bytes

/-- A text, whose bytes have to be UTF-8. -/
def readText : Reader String := do
  let count ← readNumber 8
  .claim count
  let bytes ← Reader.take count
  match String.fromUTF8? ⟨bytes.toArray⟩ with
  | some text => return text
  | none => Reader.fail

/-- A value that may be missing. -/
def writeOption {α : Type} (write : α → List UInt8) : Option α → List UInt8
  | none => writeFlag false
  | some value => writeFlag true ++ write value

/-- A value that may be missing. -/
def readOption {α : Type} (read : Reader α) : Reader (Option α) := do
  if ← readFlag then return some (← read) else return none

end ScoreScript.Field
