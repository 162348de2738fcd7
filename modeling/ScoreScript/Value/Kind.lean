import ScoreScript.Value.Literal

/-!
# Kinds of values

A predicate declares the kind of its result and of each choice that it takes.  Every kind is a
closed set of literals.

* `Kind.contains_iff_mem_legal` — the membership test accepts exactly the listed literals;
* `Kind.ofTypeName?_typeName` — a kind is found again under its type name;
* `ComparatorSet.operators` — the operators that a script may put between a result of a class and
  a literal.
-/

namespace ScoreScript

/-- How results of a kind enter a condition: as its truth value, by order, or by equality. -/
inductive KindClass where
  | boolean | numeric | enumerated
  deriving DecidableEq

/-- A closed set of literals. -/
inductive Kind where
  | bool | typeMultiplier | statValue | movePower | percentage | statModifier
  | element | optionalWeather | optionalStatus | baseStat | battleStat
  deriving DecidableEq

namespace Kind

/-- Every kind, in the order in which rules for literals are listed. -/
def all : List Kind :=
  [bool, typeMultiplier, statValue, movePower, percentage, statModifier,
    element, optionalWeather, optionalStatus, baseStat, battleStat]

/-- Position of a kind in `all`. -/
def rank : Kind → Nat
  | bool => 0 | typeMultiplier => 1 | statValue => 2 | movePower => 3 | percentage => 4
  | statModifier => 5 | element => 6 | optionalWeather => 7 | optionalStatus => 8
  | baseStat => 9 | battleStat => 10

/-- The class of a kind. -/
def kindClass : Kind → KindClass
  | bool => .boolean
  | typeMultiplier | statValue | movePower | percentage | statModifier => .numeric
  | element | optionalWeather | optionalStatus | baseStat | battleStat => .enumerated

/-- The name of a kind in declarations. -/
def typeName : Kind → String
  | bool => "bool"
  | typeMultiplier => "TypeMultiplier"
  | statValue => "StatValue"
  | movePower => "MovePower"
  | percentage => "PercentageValue"
  | statModifier => "BattleStatModifier"
  | element => "PokemonType"
  | optionalWeather => "OptionalWeather"
  | optionalStatus => "OptionalStatus"
  | baseStat => "BaseStatCategory"
  | battleStat => "BattleStatCategory"

/-- The kind with exactly this type name. -/
def ofTypeName? (text : String) : Option Kind :=
  all.find? (·.typeName == text)

/-- Least and greatest member of a kind of integers. -/
def intRange? : Kind → Option (Int × Int)
  | statValue => some (1, 255)
  | movePower => some (0, 255)
  | percentage => some (0, 100)
  | statModifier => some (-6, 6)
  | _ => none

/-- The integers from `lo` to `hi`, in ascending order. -/
def intsBetween (lo hi : Int) : List Int :=
  (List.range (hi + 1 - lo).toNat).map fun (i : Nat) => lo + i

/-- Every member of a kind, in the order in which values are offered. -/
def legal (k : Kind) : List Literal :=
  match k with
  | bool => [.bool true, .bool false]
  | typeMultiplier => Multiplier.all.map .multiplier
  | element => Element.all.map .element
  | optionalWeather => (none :: Weather.all.map some).map .weather
  | optionalStatus => (none :: Status.all.map some).map .status
  | baseStat => (Stat.all.filter Stat.isBase).map .stat
  | battleStat => Stat.all.map .stat
  | statValue => (intsBetween 1 255).map fun i => .int (Int64.ofInt i)
  | movePower => (intsBetween 0 255).map fun i => .int (Int64.ofInt i)
  | percentage => (intsBetween 0 100).map fun i => .int (Int64.ofInt i)
  | statModifier => (intsBetween (-6) 6).map fun i => .int (Int64.ofInt i)

/-- Whether a literal is a member of the kind. -/
def contains (k : Kind) (v : Literal) : Bool :=
  match k.intRange?, v with
  | some (lo, hi), .int n => decide (lo ≤ n.toInt ∧ n.toInt ≤ hi)
  | some _, _ => false
  | none, v =>
    match k, v with
    | bool, .bool _ => true
    | typeMultiplier, .multiplier _ => true
    | element, .element _ => true
    | optionalWeather, .weather _ => true
    | optionalStatus, .status _ => true
    | battleStat, .stat _ => true
    | baseStat, .stat s => s.isBase
    | _, _ => false

theorem mem_all (k : Kind) : k ∈ all := by cases k <;> decide

theorem ofTypeName?_typeName (k : Kind) : ofTypeName? k.typeName = some k := by
  cases k <;> decide

theorem rank_injective {j k : Kind} (h : j.rank = k.rank) : j = k := by
  cases j <;> cases k <;> simp_all [rank]

theorem mem_intsBetween {lo hi i : Int} : i ∈ intsBetween lo hi ↔ lo ≤ i ∧ i ≤ hi := by
  simp only [intsBetween, List.mem_map, List.mem_range]
  constructor
  · rintro ⟨k, hk, rfl⟩
    omega
  · intro h
    exact ⟨(i - lo).toNat, by omega, by omega⟩

theorem mem_intLiterals {lo hi : Int} (hlo : -2 ^ (63 : Nat) ≤ lo) (hhi : hi < 2 ^ (63 : Nat))
    {n : Int64} :
    Literal.int n ∈ (intsBetween lo hi).map (fun i => Literal.int (Int64.ofInt i)) ↔
      lo ≤ n.toInt ∧ n.toInt ≤ hi := by
  simp only [List.mem_map, mem_intsBetween, Literal.int.injEq]
  constructor
  · rintro ⟨i, hi', rfl⟩
    rw [Int64.toInt_ofInt_of_le (by omega) (by omega)]
    exact hi'
  · intro h
    exact ⟨n.toInt, h, Int64.ofInt_toInt n⟩

theorem contains_iff_mem_legal (k : Kind) (v : Literal) : k.contains v = true ↔ v ∈ k.legal := by
  cases k with
  | bool => cases v <;> simp [contains, intRange?, legal]
  | typeMultiplier => cases v <;> simp [contains, intRange?, legal, Multiplier.mem_all]
  | element => cases v <;> simp [contains, intRange?, legal, Element.mem_all]
  | optionalWeather =>
    cases v with
    | weather w => cases w <;> simp [contains, intRange?, legal, Weather.mem_all]
    | _ => simp [contains, intRange?, legal]
  | optionalStatus =>
    cases v with
    | status s => cases s <;> simp [contains, intRange?, legal, Status.mem_all]
    | _ => simp [contains, intRange?, legal]
  | baseStat => cases v <;> simp [contains, intRange?, legal, Stat.mem_all]
  | battleStat => cases v <;> simp [contains, intRange?, legal, Stat.mem_all]
  | statValue =>
    cases v with
    | int n => rw [legal, mem_intLiterals (by decide) (by decide)]; simp [contains, intRange?]
    | _ => simp [contains, intRange?, legal]
  | movePower =>
    cases v with
    | int n => rw [legal, mem_intLiterals (by decide) (by decide)]; simp [contains, intRange?]
    | _ => simp [contains, intRange?, legal]
  | percentage =>
    cases v with
    | int n => rw [legal, mem_intLiterals (by decide) (by decide)]; simp [contains, intRange?]
    | _ => simp [contains, intRange?, legal]
  | statModifier =>
    cases v with
    | int n => rw [legal, mem_intLiterals (by decide) (by decide)]; simp [contains, intRange?]
    | _ => simp [contains, intRange?, legal]

end Kind

/-! ### Operators offered by class -/

/-- Which operators are offered for numeric results. -/
inductive ComparatorSet where
  | inclusive | full
  deriving DecidableEq

/-- The operators offered for results of a class, in the order in which they are offered. -/
def ComparatorSet.operators : ComparatorSet → KindClass → List Comparator
  | _, .boolean => []
  | _, .enumerated => [.equal, .notEqual]
  | .inclusive, .numeric => [.lessOrEqual, .greaterOrEqual]
  | .full, .numeric => [.less, .lessOrEqual, .greater, .greaterOrEqual, .equal, .notEqual]

theorem ComparatorSet.operators_enumerated (s : ComparatorSet) :
    s.operators .enumerated = Comparator.all.filter Comparator.isEquality := by
  cases s <;> rfl

end ScoreScript
