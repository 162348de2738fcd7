import Mathlib.Data.Nat.Dist
import ScoreScript.Numeric.Rounding

/-!
# Nearest numbers

Rounding gives a number that fits into the significant bits, and no number that fits lies nearer.
Rounding keeps the order for that reason alone: were the greater of two numbers rounded to less,
each of them would lie nearer to what the other one is rounded to.

* `Rounding.fits_nearest`, `Rounding.dist_nearest_le` — what rounding gives;
* `Rounding.nearest_of_fits` — numbers that fit stay as they are;
* `Rounding.nearestInt_mono` — rounding keeps the order.
-/

namespace ScoreScript.Rounding

/-- Numbers with at most `bits` significant bits. -/
def Fits (bits n : Nat) : Prop :=
  ∃ m e, m < 2 ^ bits ∧ n = m * 2 ^ e

variable {bits m n : Nat}

/-! ### Multiples of a power of two -/

theorem toMultiple_eq_or (drop n : Nat) :
    toMultiple drop n = n / 2 ^ drop * 2 ^ drop ∨
      toMultiple drop n = (n / 2 ^ drop + 1) * 2 ^ drop := by
  rw [toMultiple]
  split
  · exact .inl rfl
  · exact .inr rfl

/-- No multiple lies nearer. -/
theorem dist_toMultiple_le (drop n k : Nat) :
    Nat.dist n (toMultiple drop n) ≤ Nat.dist n (k * 2 ^ drop) := by
  have hsplit := Nat.div_add_mod' n (2 ^ drop)
  have hmod := Nat.mod_lt n (Nat.two_pow_pos drop)
  have hnext : (n / 2 ^ drop + 1) * 2 ^ drop = n / 2 ^ drop * 2 ^ drop + 2 ^ drop := by
    rw [Nat.add_mul, Nat.one_mul]
  -- the multiple `k` lies on the one or on the other side of `n`
  have hside : k * 2 ^ drop ≤ n / 2 ^ drop * 2 ^ drop ∨
      (n / 2 ^ drop + 1) * 2 ^ drop ≤ k * 2 ^ drop := by
    by_cases hk : k ≤ n / 2 ^ drop
    · exact .inl (Nat.mul_le_mul_right _ hk)
    · exact .inr (Nat.mul_le_mul_right _ (Nat.lt_of_not_le hk))
  rw [toMultiple]
  unfold Nat.dist
  split <;> omega

/-! ### Significant bits -/

theorem lt_two_pow_excess (bits n : Nat) : n < 2 ^ bits * 2 ^ excess bits n := by
  rw [← Nat.pow_add]
  refine Nat.lt_of_lt_of_le Nat.lt_log2_self (Nat.pow_le_pow_right (by decide) ?_)
  unfold excess
  omega

theorem two_pow_le_of_excess_pos (hbits : 0 < bits) (h : 0 < excess bits n) :
    2 ^ (bits + excess bits n - 1) ≤ n := by
  have hn : n ≠ 0 := by
    intro hzero
    rw [hzero, excess, Nat.log2_zero] at h
    omega
  have hlog : bits + excess bits n - 1 = n.log2 := by
    unfold excess at h ⊢
    omega
  rw [hlog]
  exact Nat.log2_self_le hn

theorem fits_nearest (hbits : 0 < bits) (n : Nat) : Fits bits (nearest bits n) := by
  have hquotient : n / 2 ^ excess bits n < 2 ^ bits :=
    (Nat.div_lt_iff_lt_mul (Nat.two_pow_pos _)).2 (lt_two_pow_excess bits n)
  rcases toMultiple_eq_or (excess bits n) n with h | h
  · exact ⟨_, _, hquotient, h⟩
  · by_cases hfull : n / 2 ^ excess bits n + 1 = 2 ^ bits
    · -- rounding up gave one more bit, and all of them but the first are zeros
      refine ⟨1, bits + excess bits n, Nat.one_lt_two_pow (Nat.ne_of_gt hbits), ?_⟩
      rw [nearest, h, hfull, Nat.one_mul, Nat.pow_add]
    · exact ⟨_, _, Nat.lt_of_le_of_ne hquotient hfull, h⟩

/-- No number that fits lies nearer. -/
theorem dist_nearest_le (hbits : 0 < bits) (n : Nat) (hm : Fits bits m) :
    Nat.dist n (nearest bits n) ≤ Nat.dist n m := by
  obtain ⟨k, e, hk, rfl⟩ := hm
  by_cases he : excess bits n ≤ e
  · have hmultiple : k * 2 ^ e = k * 2 ^ (e - excess bits n) * 2 ^ excess bits n := by
      rw [Nat.mul_assoc, ← Nat.pow_add, Nat.sub_add_cancel he]
    rw [hmultiple]
    exact dist_toMultiple_le _ _ _
  · -- the number is too small: the least multiple with all significant bits lies between
    have hpos : 0 < excess bits n := by omega
    have hle := two_pow_le_of_excess_pos hbits hpos
    have hbetween : k * 2 ^ e ≤ 2 ^ (bits + excess bits n - 1) := by
      calc k * 2 ^ e ≤ 2 ^ bits * 2 ^ e := Nat.mul_le_mul_right _ (Nat.le_of_lt hk)
        _ = 2 ^ (bits + e) := (Nat.pow_add 2 bits e).symm
        _ ≤ 2 ^ (bits + excess bits n - 1) := Nat.pow_le_pow_right (by decide) (by omega)
    have hmultiple : 2 ^ (bits + excess bits n - 1) = 2 ^ (bits - 1) * 2 ^ excess bits n := by
      rw [← Nat.pow_add]
      congr 1
      omega
    have hnear := dist_toMultiple_le (excess bits n) n (2 ^ (bits - 1))
    rw [← hmultiple] at hnear
    unfold nearest Nat.dist at *
    omega

theorem nearest_of_fits (hbits : 0 < bits) (hn : Fits bits n) : nearest bits n = n := by
  have h := dist_nearest_le hbits n hn
  unfold Nat.dist at h
  omega

/-- Rounding keeps the order. -/
theorem nearest_mono (hbits : 0 < bits) (h : m ≤ n) : nearest bits m ≤ nearest bits n := by
  have hm := dist_nearest_le hbits m (fits_nearest hbits n)
  have hn := dist_nearest_le hbits n (fits_nearest hbits m)
  by_cases heq : m = n
  · rw [heq]
  · unfold Nat.dist at hm hn
    omega

/-! ### Integers -/

theorem nearestInt_mono (hbits : 0 < bits) {m n : Int} (h : m ≤ n) :
    nearestInt bits m ≤ nearestInt bits n := by
  unfold nearestInt
  split <;> split
  · have hmono := nearest_mono hbits (show n.natAbs ≤ m.natAbs by omega)
    omega
  · omega
  · omega
  · have hmono := nearest_mono hbits (show m.natAbs ≤ n.natAbs by omega)
    omega

theorem nearestInt_of_natAbs_le (hbits : 0 < bits) {n : Int} (h : n.natAbs ≤ 2 ^ bits) :
    nearestInt bits n = n := by
  by_cases hlt : n.natAbs < 2 ^ bits
  · exact nearestInt_of_natAbs_lt hlt
  · have hfits : Fits bits n.natAbs :=
      ⟨1, bits, Nat.one_lt_two_pow (Nat.ne_of_gt hbits), by omega⟩
    unfold nearestInt
    rw [nearest_of_fits hbits hfits]
    split <;> omega

end ScoreScript.Rounding
