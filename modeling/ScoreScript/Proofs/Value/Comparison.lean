import Mathlib.Algebra.Order.Field.Basic
import Mathlib.Algebra.Order.Ring.Rat
import Mathlib.Data.Rat.Cast.Order
import Mathlib.Order.Compare
import Mathlib.Tactic.NormNum
import ScoreScript.Proofs.Numeric.Nearest
import ScoreScript.Value.Literal

/-!
# Comparing literals

An operator stands for a relation on ordered values.  Multipliers are compared as the numbers that
they are.  Integers are compared as binary64 numbers: rounding keeps their order, so they compare
as integers do, unless both are rounded to one number and count as the same.

* `Comparator.Relates` — the relation that an operator stands for;
* `Literal.compare_int_eq` — integers;
* `Literal.compare_multiplier` — multipliers;
* `Literal.compare_same_sort` — two literals of one sort, for every operator.
-/

namespace ScoreScript

/-! ### Relations -/

namespace Comparator

variable {α β : Type} [LinearOrder α] [LinearOrder β]

/-- The relation that an operator stands for. -/
def Relates : Comparator → α → α → Prop
  | equal, a, b => a = b
  | notEqual, a, b => a ≠ b
  | greater, a, b => a > b
  | greaterOrEqual, a, b => a ≥ b
  | less, a, b => a < b
  | lessOrEqual, a, b => a ≤ b

instance (op : Comparator) (a b : α) : Decidable (op.Relates a b) :=
  match op with
  | equal => inferInstanceAs (Decidable (a = b))
  | notEqual => inferInstanceAs (Decidable (a ≠ b))
  | greater => inferInstanceAs (Decidable (a > b))
  | greaterOrEqual => inferInstanceAs (Decidable (a ≥ b))
  | less => inferInstanceAs (Decidable (a < b))
  | lessOrEqual => inferInstanceAs (Decidable (a ≤ b))

/-- The outcome of a comparison decides every relation. -/
theorem holds_compare (op : Comparator) (a b : α) :
    op.holds (compare a b) = decide (op.Relates a b) := by
  rw [Bool.eq_iff_iff, decide_eq_true_iff]
  cases op <;> simp [holds, Relates, compare_lt_iff_lt, compare_gt_iff_gt]

/-- A function that keeps the order keeps every relation between values that it tells apart. -/
theorem relates_map_of_ne {f : α → β} (hf : Monotone f) {a b : α} (hne : f a ≠ f b)
    (op : Comparator) : op.Relates (f a) (f b) ↔ op.Relates a b := by
  have hle : f a ≤ f b ↔ a ≤ b := by
    constructor
    · intro h
      exact le_of_not_ge fun hba => hne (le_antisymm h (hf hba))
    · exact fun h => hf h
  have hle' : f b ≤ f a ↔ b ≤ a := by
    constructor
    · intro h
      exact le_of_not_ge fun hab => hne (le_antisymm (hf hab) h)
    · exact fun h => hf h
  have hab : a ≠ b := fun h => hne (congrArg f h)
  cases op with
  | equal => exact iff_of_false hne hab
  | notEqual => exact iff_of_true hne hab
  | greater => exact lt_iff_lt_of_le_iff_le hle
  | greaterOrEqual => exact hle'
  | less => exact lt_iff_lt_of_le_iff_le hle'
  | lessOrEqual => exact hle

/-- Equal values relate as any value does to itself. -/
theorem relates_self (op : Comparator) (a : α) (b : β) : op.Relates a a ↔ op.Relates b b := by
  cases op <;> simp [Relates]

theorem relates_map {f : α → β} (hf : StrictMono f) (op : Comparator) (a b : α) :
    op.Relates (f a) (f b) ↔ op.Relates a b := by
  by_cases h : a = b
  · rw [h]
    exact relates_self op (f b) b
  · exact relates_map_of_ne hf.monotone (fun hf' => h (hf.injective hf')) op

end Comparator

/-! ### Multipliers -/

/-- The number that a multiplier is. -/
def Multiplier.value : Multiplier → ℚ
  | immune => 0
  | quarter => 1 / 4
  | half => 1 / 2
  | neutral => 1
  | double => 2
  | quadruple => 4

theorem Multiplier.quarters_div (m : Multiplier) : ((m.quarters : Int) : ℚ) / 4 = m.value := by
  cases m <;> norm_num [quarters, value]

theorem Multiplier.value_injective {m n : Multiplier} (h : m.value = n.value) : m = n := by
  rw [← quarters_div, ← quarters_div, div_left_inj' (by norm_num)] at h
  exact quarters_injective (by exact_mod_cast h)

namespace Literal

/-- Multipliers compare as the numbers that they are. -/
theorem compare_multiplier (op : Comparator) (m n : Multiplier) :
    compare op (multiplier m) (multiplier n) = some (decide (op.Relates m.value n.value)) := by
  have hmono : StrictMono fun k : Int => (k : ℚ) / 4 := fun _ _ h =>
    div_lt_div_of_pos_right (Int.cast_lt.2 h) (by norm_num)
  have hrelates := Comparator.relates_map hmono op m.quarters n.quarters
  simp only [Multiplier.quarters_div] at hrelates
  show some (op.holds (Ord.compare (m.quarters : Int) (n.quarters : Int))) = _
  rw [Comparator.holds_compare, decide_eq_decide.2 hrelates]

/-! ### Integers -/

open Rounding (nearestInt)

/-- Integers compare as the binary64 numbers nearest to them. -/
theorem compare_int_nearest (op : Comparator) (a b : Int64) :
    compare op (int a) (int b) =
      some (decide (op.Relates (nearestInt 53 a.toInt) (nearestInt 53 b.toInt))) := by
  have hmono : StrictMono fun k : Int => 4 * k := fun _ _ h =>
    Int.mul_lt_mul_of_pos_left h (by decide)
  have hrelates :=
    Comparator.relates_map hmono op (nearestInt 53 a.toInt) (nearestInt 53 b.toInt)
  show some (op.holds (Ord.compare (4 * nearestInt 53 a.toInt) (4 * nearestInt 53 b.toInt))) = _
  rw [Comparator.holds_compare, decide_eq_decide.2 hrelates]

/-- Integers with different nearest numbers compare as integers. -/
theorem compare_int_of_ne {a b : Int64} (h : nearestInt 53 a.toInt ≠ nearestInt 53 b.toInt)
    (op : Comparator) : compare op (int a) (int b) = some (decide (op.Relates a.toInt b.toInt)) := by
  have hmono : Monotone (nearestInt 53) := fun _ _ h => Rounding.nearestInt_mono (by decide) h
  have hrelates := Comparator.relates_map_of_ne hmono h op
  rw [compare_int_nearest, decide_eq_decide.2 hrelates]

/-- Integers with the same nearest number count as equal. -/
theorem compare_int_of_eq {a b : Int64} (h : nearestInt 53 a.toInt = nearestInt 53 b.toInt)
    (op : Comparator) : compare op (int a) (int b) = some (decide (op.Relates a.toInt a.toInt)) := by
  have hrelates := Comparator.relates_self op (nearestInt 53 b.toInt) a.toInt
  rw [compare_int_nearest, h, decide_eq_decide.2 hrelates]

/-- Integers of magnitude up to `2 ^ 53` compare as integers. -/
theorem compare_int_of_natAbs_le {a b : Int64} (ha : a.toInt.natAbs ≤ 2 ^ (53 : Nat))
    (hb : b.toInt.natAbs ≤ 2 ^ (53 : Nat)) (op : Comparator) :
    compare op (int a) (int b) = some (decide (op.Relates a.toInt b.toInt)) := by
  rw [compare_int_nearest, Rounding.nearestInt_of_natAbs_le (by decide) ha,
    Rounding.nearestInt_of_natAbs_le (by decide) hb]

/-! ### Literals of one sort -/

/-- Literals that are no numbers compare for equality alone. -/
theorem compare_of_quarters?_eq_none {a b : Literal} (hsort : a.sameSort b = true)
    (ha : a.quarters? = none) (op : Comparator) : compare op a b = compareEquality op a b := by
  rw [compare, ha, hsort]
  rfl

theorem exists_of_sameSort_int {v : Int64} {b : Literal} (h : (int v).sameSort b = true) :
    ∃ w, b = int w := by
  cases b with
  | int w => exact ⟨w, rfl⟩
  | bool | multiplier | element | weather | status | stat => cases h

theorem exists_of_sameSort_multiplier {m : Multiplier} {b : Literal}
    (h : (multiplier m).sameSort b = true) : ∃ n, b = multiplier n := by
  cases b with
  | multiplier n => exact ⟨n, rfl⟩
  | bool | int | element | weather | status | stat => cases h

/-- Literals of one sort count as equal when they are, or when both are integers with the same
nearest number. -/
theorem compare_equal_eq_some_true_iff {a b : Literal} (hsort : a.sameSort b = true) :
    compare .equal a b = some true ↔ a = b ∨
      ∃ u v, a = int u ∧ b = int v ∧ nearestInt 53 u.toInt = nearestInt 53 v.toInt := by
  cases hnumber : a.quarters? with
  | none =>
    rw [compare_of_quarters?_eq_none hsort hnumber, compareEquality, Option.some.injEq, beq_iff_eq]
    refine ⟨.inl, fun h => h.resolve_right ?_⟩
    rintro ⟨u, v, rfl, _⟩
    cases hnumber
  | some number =>
    cases a with
    | int u =>
      obtain ⟨v, rfl⟩ := exists_of_sameSort_int hsort
      rw [compare_int_nearest, Option.some.injEq, decide_eq_true_iff]
      constructor
      · exact fun h => .inr ⟨u, v, rfl, rfl, h⟩
      · rintro (h | ⟨u', v', hu, hv, h⟩)
        · rw [int.inj h]
          rfl
        · rw [int.inj hu, int.inj hv]
          exact h
    | multiplier m =>
      obtain ⟨n, rfl⟩ := exists_of_sameSort_multiplier hsort
      rw [compare_multiplier, Option.some.injEq, decide_eq_true_iff]
      constructor
      · exact fun h => .inl (congrArg multiplier (Multiplier.value_injective h))
      · rintro (h | ⟨u, v, hu, _⟩)
        · rw [multiplier.inj h]
          rfl
        · cases hu
    | bool | element | weather | status | stat => cases hnumber

/-- **Comparison is exact up to rounding.**  Integers that do not round to one binary64 number
compare in their order, and so do all of magnitude up to `2 ^ 53`; those that round to one number
count as equal.  Multipliers compare in the order of their numbers.  All other literals compare for
equality alone.  So literals of one sort count as equal when they are, or when both are integers
that round to one number. -/
theorem compare_same_sort :
    (∀ (op : Comparator) (a b : Int64),
      (nearestInt 53 a.toInt ≠ nearestInt 53 b.toInt →
        compare op (int a) (int b) = some (decide (op.Relates a.toInt b.toInt))) ∧
      (nearestInt 53 a.toInt = nearestInt 53 b.toInt →
        compare op (int a) (int b) = some (decide (op.Relates a.toInt a.toInt))) ∧
      (a.toInt.natAbs ≤ 2 ^ (53 : Nat) → b.toInt.natAbs ≤ 2 ^ (53 : Nat) →
        compare op (int a) (int b) = some (decide (op.Relates a.toInt b.toInt)))) ∧
    (∀ (op : Comparator) (m n : Multiplier),
      compare op (multiplier m) (multiplier n) = some (decide (op.Relates m.value n.value))) ∧
    (∀ a b : Literal, a.sameSort b = true → a.quarters? = none →
      compare .equal a b = some (decide (a = b)) ∧
      compare .notEqual a b = some (decide (a ≠ b)) ∧
      ∀ op : Comparator, op.isEquality = false → compare op a b = none) ∧
    ∀ a b : Literal, a.sameSort b = true →
      (compare .equal a b = some true ↔ a = b ∨
        ∃ u v, a = int u ∧ b = int v ∧ nearestInt 53 u.toInt = nearestInt 53 v.toInt) := by
  refine ⟨?_, compare_multiplier, ?_, fun a b => compare_equal_eq_some_true_iff⟩
  · intro op a b
    exact ⟨fun h => compare_int_of_ne h op, fun h => compare_int_of_eq h op,
      fun ha hb => compare_int_of_natAbs_le ha hb op⟩
  · intro a b hsort ha
    have hcompare := compare_of_quarters?_eq_none hsort ha
    refine ⟨hcompare .equal, ?_, ?_⟩
    · rw [hcompare .notEqual, compareEquality, decide_not]
      rfl
    · intro op hop
      rw [hcompare op]
      cases op with
      | equal | notEqual => cases hop
      | greater | greaterOrEqual | less | lessOrEqual => rfl

/-- Each part, on literals of its sort. -/
theorem compare_same_sort_samples :
    compare .less (int 3) (int 5) = some true ∧
      compare .greater (int 9007199254740993) (int 9007199254740992) = some false ∧
      compare .less (int (-9007199254740992)) (int 9007199254740992) = some true ∧
      compare .less (weather none) (weather none) = none ∧
      compare .equal (element .bug) (element .bug) = some true := by
  obtain ⟨hint, _, hother, hequal⟩ := compare_same_sort
  refine ⟨?_, ?_, ?_, ?_, ?_⟩
  · exact (hint .less 3 5).1 (by decide +kernel)
  · exact (hint .greater 9007199254740993 9007199254740992).2.1 (by decide +kernel)
  · exact (hint .less (-9007199254740992) 9007199254740992).2.2 (by decide) (by decide)
  · exact (hother (weather none) (weather none) rfl rfl).2.2 .less rfl
  · exact (hequal (element .bug) (element .bug) rfl).2 (.inl rfl)

/-- Two integers in a row that round to one number count as equal. -/
theorem compare_int_not_exact :
    compare .equal (int 9007199254740992) (int 9007199254740993) = some true ∧
      ¬ Comparator.equal.Relates (9007199254740992 : Int64).toInt (9007199254740993 : Int64).toInt := by
  decide +kernel

end Literal

end ScoreScript
