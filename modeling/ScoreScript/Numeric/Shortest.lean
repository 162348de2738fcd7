import ScoreScript.Numeric.Rounding

/-!
# Shortest decimals of binary64 numbers

A binary64 number stands for all reals that round to it.  Its shortest decimal is the first hit on
the decimal grids, from coarse to fine: a multiple of a power of ten inside that interval, the
nearer one to the number of two hits, and the greater one of two that are equally near.  All
arithmetic is exact.

* `Shortest.Real64` — a positive finite number `m * 2 ^ q` and the interval around it;
* `Shortest.Real64.decimal` — digits and exponent of the shortest decimal;
* `Shortest.text` — the decimal in positional form, never with an exponent.
-/

namespace ScoreScript.Shortest

/-- A positive finite binary64 number, `mantissa * 2 ^ exponent`.  The gap to the number below is
half as wide where the exponent changes. -/
structure Real64 where
  mantissa : Nat
  exponent : Int
  narrowBelow : Bool

namespace Real64

/-- The number with the given fields of a positive finite pattern. -/
def ofFields (biased fraction : Nat) : Real64 :=
  if biased = 0 then ⟨fraction, -1074, false⟩
  else ⟨2 ^ (52 : Nat) + fraction, (biased : Int) - 1075, fraction = 0 ∧ 1 < biased⟩

/-- Factor of a multiple of `10 ^ k` when it is compared with quarters of the last place. -/
def gridScale (r : Real64) (k : Int) : Nat :=
  10 ^ k.toNat * 2 ^ (2 - r.exponent).toNat

/-- Factor of quarters of the last place when they are compared with a multiple of `10 ^ k`. -/
def quarterScale (r : Real64) (k : Int) : Nat :=
  2 ^ (r.exponent - 2).toNat * 10 ^ (-k).toNat

/-- Whether `n * 10 ^ k` rounds to the number.  The ends of the interval do so when the last bit is
zero. -/
def accepts (r : Real64) (k : Int) (n : Nat) : Bool :=
  let point := n * r.gridScale k
  let low := (4 * r.mantissa - if r.narrowBelow then 1 else 2) * r.quarterScale k
  let high := (4 * r.mantissa + 2) * r.quarterScale k
  if r.mantissa % 2 = 0 then low ≤ point && point ≤ high else low < point && point < high

/-- The greatest `n` for which `n * 10 ^ k` is not above the number. -/
def floorAt (r : Real64) (k : Int) : Nat :=
  4 * r.mantissa * r.quarterScale k / r.gridScale k

/-- Whether the multiple after `floorAt` is at least as near to the number. -/
def upperIsNearer (r : Real64) (k : Int) : Bool :=
  (2 * r.floorAt k + 1) * r.gridScale k ≤ 2 * (4 * r.mantissa * r.quarterScale k)

/-- The multiple of `10 ^ k` that stands for the number, if one does. -/
def hit? (r : Real64) (k : Int) : Option Nat :=
  let n := r.floorAt k
  match r.accepts k n, r.accepts k (n + 1) with
  | true, true => some (if r.upperIsNearer k then n + 1 else n)
  | true, false => some n
  | false, true => some (n + 1)
  | false, false => none

/-- The first hit on the grids `10 ^ (lowest + steps)`, …, `10 ^ lowest`. -/
def search (r : Real64) (lowest : Int) : Nat → Nat × Int
  | 0 => (r.floorAt lowest, lowest)
  | steps + 1 =>
    match r.hit? (lowest + (steps + 1 : Nat)) with
    | some n => (n, lowest + (steps + 1 : Nat))
    | none => search r lowest steps

/-- Digits and decimal exponent of the shortest decimal.  Every number is below `10 ^ 309`, and no
grid finer than `10 ^ (-341)` is needed. -/
def decimal (r : Real64) : Nat × Int :=
  r.search (-341) 650

end Real64

/-- The decimal `n * 10 ^ k` in positional form. -/
def positional (n : Nat) (k : Int) : String :=
  if 0 ≤ k then n.repr ++ String.ofList (List.replicate k.toNat '0')
  else
    let places := (-k).toNat
    let digits := n.repr.toList
    let padded := List.replicate (places + 1 - digits.length) '0' ++ digits
    String.ofList (padded.take (padded.length - places)) ++ "." ++
      String.ofList (padded.drop (padded.length - places))

/-- The text of the absolute value of a pattern. -/
def magnitude (raw : Nat) : String :=
  let biased := raw / 2 ^ (52 : Nat) % 2 ^ (11 : Nat)
  let fraction := raw % 2 ^ (52 : Nat)
  if biased = 2047 then "inf"
  else if biased = 0 ∧ fraction = 0 then "0"
  else
    let (n, k) := (Real64.ofFields biased fraction).decimal
    positional n k

/-- The text of a binary64 number. -/
def text (x : Float) : String :=
  if x.isNaN then "NaN"
  else if x.toBits.toNat < 2 ^ (63 : Nat) then magnitude x.toBits.toNat
  else "-" ++ magnitude x.toBits.toNat

end ScoreScript.Shortest
