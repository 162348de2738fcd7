/-!
# Rounding to a number of significant bits

A binary64 number carries 53 significant bits, so an integer that needs more is replaced by the
nearest one that does not; of two equally near the one with the even last kept bit is taken.

* `Rounding.nearest`, `Rounding.nearestInt` — the nearest number with so many significant bits;
* `Rounding.nearest_of_lt` — a number that fits stays as it is.
-/

namespace ScoreScript

/-- Powers are the built-in ones here, whatever other instances a module imports.  Exponents that are
numerals carry their type, so that no default instance is asked for one. -/
scoped instance (priority := high) natPow {α : Type} [NatPow α] : Pow α Nat := instPowNat

end ScoreScript

namespace ScoreScript.Rounding

/-- Number of low bits of `n` that do not fit into `bits` significant ones. -/
def excess (bits n : Nat) : Nat :=
  n.log2 + 1 - bits

/-- The multiple of `2 ^ drop` nearest to `n`; halfway goes to the even multiple. -/
def toMultiple (drop n : Nat) : Nat :=
  let quotient := n / 2 ^ drop
  let rest := 2 * (n % 2 ^ drop)
  if rest < 2 ^ drop ∨ (rest = 2 ^ drop ∧ quotient % 2 = 0) then quotient * 2 ^ drop
  else (quotient + 1) * 2 ^ drop

/-- The nearest number with at most `bits` significant bits. -/
def nearest (bits n : Nat) : Nat :=
  toMultiple (excess bits n) n

theorem toMultiple_zero (n : Nat) : toMultiple 0 n = n := by
  simp [toMultiple, Nat.mod_one]

theorem nearest_zero (bits : Nat) : nearest bits 0 = 0 := by
  simp [nearest, toMultiple]

theorem nearest_of_lt {bits n : Nat} (h : n < 2 ^ bits) : nearest bits n = n := by
  by_cases hn : n = 0
  · rw [hn, nearest_zero]
  · have hlog : n.log2 < bits := (Nat.log2_lt hn).2 h
    have hdrop : excess bits n = 0 := by
      unfold excess
      omega
    rw [nearest, hdrop, toMultiple_zero]

/-- The nearest integer with at most `bits` significant bits. -/
def nearestInt (bits : Nat) (n : Int) : Int :=
  if n < 0 then -(nearest bits n.natAbs : Nat) else (nearest bits n.natAbs : Nat)

theorem nearestInt_of_natAbs_lt {bits : Nat} {n : Int} (h : n.natAbs < 2 ^ bits) :
    nearestInt bits n = n := by
  unfold nearestInt
  rw [nearest_of_lt h]
  split <;> omega

end ScoreScript.Rounding
