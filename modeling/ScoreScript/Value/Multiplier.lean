/-!
# Damage multipliers

The effect of an attacking type on a defending one is one of six numbers: 0, 1/4, 1/2, 1, 2 and 4.
They are counted in quarters, so that every comparison is one of natural numbers, and they have a
binary64 pattern, under which they are stored.

* `Multiplier.ofBits?_bits` — a multiplier is found again from its stored pattern;
* `Multiplier.quarters_injective` — the quarters tell the six apart.
-/

namespace ScoreScript

/-- Factor by which a type matchup scales damage. -/
inductive Multiplier where
  | immune | quarter | half | neutral | double | quadruple
  deriving DecidableEq

namespace Multiplier

/-- Every multiplier, smallest first. -/
def all : List Multiplier :=
  [immune, quarter, half, neutral, double, quadruple]

/-- The multiplier counted in quarters. -/
def quarters : Multiplier → Nat
  | immune => 0
  | quarter => 1
  | half => 2
  | neutral => 4
  | double => 8
  | quadruple => 16

/-- The multiplier as a decimal number. -/
def text : Multiplier → String
  | immune => "0"
  | quarter => "0.25"
  | half => "0.5"
  | neutral => "1"
  | double => "2"
  | quadruple => "4"

/-- The binary64 pattern of the multiplier. -/
def bits : Multiplier → UInt64
  | immune => 0x0000000000000000
  | quarter => 0x3FD0000000000000
  | half => 0x3FE0000000000000
  | neutral => 0x3FF0000000000000
  | double => 0x4000000000000000
  | quadruple => 0x4010000000000000

/-- The multiplier whose number a binary64 pattern denotes.  Both zeros denote the number 0. -/
def ofBits? (raw : UInt64) : Option Multiplier :=
  if raw = 0x8000000000000000 then some immune else all.find? (·.bits == raw)

theorem mem_all (m : Multiplier) : m ∈ all := by cases m <;> decide

theorem ofBits?_bits (m : Multiplier) : ofBits? m.bits = some m := by cases m <;> decide

theorem quarters_injective {m n : Multiplier} (h : m.quarters = n.quarters) : m = n := by
  cases m <;> cases n <;> simp_all [quarters]

end Multiplier

end ScoreScript
