import ScoreScript.Cache.Field
import ScoreScript.Grammar.Rule
import ScoreScript.Numeric.Shortest

/-!
# Stored labels

The cache stores a label as a tag and fields.  Kinds and members of the vocabulary are stored by
name and multipliers by their binary64 pattern, so what is read need not be a label: it first has to
be resolved.

* `StoredLabel.ofSymbol` — the stored form of a label;
* `StoredLabel.resolve` — the label of a stored form, or what is wrong with it;
* `StoredLabel.write`, `StoredLabel.read` — the bytes of a stored form;
* `StoredLiteral.resolve_ofLiteral` — a literal is found again from its stored form.
-/

namespace ScoreScript

/-- A name that stands for nothing, a number that is no multiplier, or a predicate beyond the
catalog. -/
inductive LabelFault where
  | unknownElement (name : String)
  | unknownWeather (name : String)
  | unknownStatus (name : String)
  | unknownStat (name : String)
  | unknownKind (name : String)
  | illegalMultiplier (raw : UInt64)
  | predicateOutOfBounds (index count : Nat)
  deriving DecidableEq

/-- The wording of a fault. -/
def LabelFault.message : LabelFault → String
  | unknownElement name => s!"unknown type '{name}'"
  | unknownWeather name => s!"unknown weather '{name}'"
  | unknownStatus name => s!"unknown status '{name}'"
  | unknownStat name => s!"unknown stat '{name}'"
  | unknownKind name => s!"unknown value kind '{name}'"
  | illegalMultiplier raw =>
    "illegal type multiplier " ++ Shortest.text (Float.ofBits raw)
  | predicateOutOfBounds index count =>
    s!"predicate rule {index} out of bounds (catalog has {count})"

/-- The value behind a name, or a fault. -/
def orFault {α : Type} (fault : LabelFault) : Option α → Except LabelFault α
  | some value => .ok value
  | none => .error fault

/-! ### Literals -/

/-- A literal as it is stored. -/
inductive StoredLiteral where
  | bool (value : Bool)
  | int (value : Int64)
  | multiplier (raw : UInt64)
  | element (name : String)
  | weather (name : Option String)
  | status (name : Option String)
  | stat (name : String)
  deriving DecidableEq

namespace StoredLiteral

/-- The stored form of a literal. -/
def ofLiteral : Literal → StoredLiteral
  | .bool value => bool value
  | .int value => int value
  | .multiplier value => multiplier value.bits
  | .element value => element value.name
  | .weather value => weather (value.map Weather.name)
  | .status value => status (value.map Status.name)
  | .stat value => stat value.name

/-- The literal of a stored form. -/
def resolve : StoredLiteral → Except LabelFault Literal
  | bool value => .ok (.bool value)
  | int value => .ok (.int value)
  | multiplier raw => (orFault (.illegalMultiplier raw) (Multiplier.ofBits? raw)).map .multiplier
  | element name => (orFault (.unknownElement name) (Element.ofName? name)).map .element
  | weather none => .ok (.weather none)
  | weather (some name) =>
    (orFault (.unknownWeather name) (Weather.ofName? name)).map fun w => .weather (some w)
  | status none => .ok (.status none)
  | status (some name) =>
    (orFault (.unknownStatus name) (Status.ofName? name)).map fun s => .status (some s)
  | stat name => (orFault (.unknownStat name) (Stat.ofName? name)).map .stat

/-- The bytes of a stored literal. -/
def write : StoredLiteral → List UInt8
  | bool value => Field.writeNumber 0 ++ Field.writeFlag value
  | int value => Field.writeNumber 1 ++ Field.writeInteger value
  | multiplier raw => Field.writeNumber 2 ++ Field.writePattern raw
  | element name => Field.writeNumber 3 ++ Field.writeText name
  | weather name => Field.writeNumber 4 ++ Field.writeOption Field.writeText name
  | status name => Field.writeNumber 5 ++ Field.writeOption Field.writeText name
  | stat name => Field.writeNumber 6 ++ Field.writeText name

/-- A stored literal. -/
def read : Reader StoredLiteral := do
  match ← Field.readNumber 4 with
  | 0 => return bool (← Field.readFlag)
  | 1 => return int (← Field.readInteger)
  | 2 => return multiplier (← Field.readPattern)
  | 3 => return element (← Field.readText)
  | 4 => return weather (← Field.readOption Field.readText)
  | 5 => return status (← Field.readOption Field.readText)
  | 6 => return stat (← Field.readText)
  | _ => Reader.fail

theorem resolve_ofLiteral (v : Literal) : (ofLiteral v).resolve = .ok v := by
  cases v with
  | bool value => rfl
  | int value => rfl
  | multiplier value =>
    rw [ofLiteral, resolve, Multiplier.ofBits?_bits]
    rfl
  | element value =>
    rw [ofLiteral, resolve, Element.ofName?_name]
    rfl
  | weather value =>
    cases value with
    | none => rfl
    | some w =>
      rw [ofLiteral, Option.map_some, resolve, Weather.ofName?_name]
      rfl
  | status value =>
    cases value with
    | none => rfl
    | some s =>
      rw [ofLiteral, Option.map_some, resolve, Status.ofName?_name]
      rfl
  | stat value =>
    rw [ofLiteral, resolve, Stat.ofName?_name]
    rfl

end StoredLiteral

/-! ### Rules -/

/-- A rule as it is stored: a plain one by its position in `Rule.plain`. -/
inductive StoredRule where
  | plain (position : Fin 13)
  | literal (kindName : String)
  | predicate (index : Nat)
  deriving DecidableEq

namespace StoredRule

/-- The stored form of a rule. -/
def ofRule : Rule → StoredRule
  | .start => plain 0
  | .block => plain 1
  | .body => plain 2
  | .condition => plain 3
  | .conjunction => plain 4
  | .disjunction => plain 5
  | .negation => plain 6
  | .atom => plain 7
  | .adjustment => plain 8
  | .amount => plain 9
  | .call => plain 10
  | .numericComparator => plain 11
  | .enumComparator => plain 12
  | .literal kind => literal kind.typeName
  | .predicate index => predicate index

/-- The rule of a stored form, over a catalog of `count` predicates. -/
def resolve (count : Nat) : StoredRule → Except LabelFault Rule
  | plain position => .ok (Rule.plain.get position)
  | literal name => (orFault (.unknownKind name) (Kind.ofTypeName? name)).map .literal
  | predicate index =>
    if index < count then .ok (.predicate index) else .error (.predicateOutOfBounds index count)

/-- The bytes of a stored rule. -/
def write : StoredRule → List UInt8
  | plain position => Field.writeNumber position
  | literal name => Field.writeNumber 13 ++ Field.writeText name
  | predicate index => Field.writeNumber 14 ++ Field.writeNumber index

/-- A stored rule. -/
def read : Reader StoredRule := do
  let tag ← Field.readNumber 4
  if h : tag < 13 then return plain ⟨tag, h⟩
  else if tag = 13 then return literal (← Field.readText)
  else if tag = 14 then return predicate (← Field.readNumber 8)
  else Reader.fail

theorem resolve_ofRule {count : Nat} (r : Rule) (h : ∀ index, r = .predicate index → index < count) :
    (ofRule r).resolve count = .ok r := by
  cases r with
  | literal kind =>
    rw [ofRule, resolve, Kind.ofTypeName?_typeName]
    rfl
  | predicate index => rw [ofRule, resolve, if_pos (h index rfl)]
  | _ => rfl

end StoredRule

/-! ### Labels -/

/-- A label as it is stored. -/
inductive StoredLabel where
  | rule (rule : StoredRule)
  | name (text : String)
  | state
  | action
  | op (comparator : Comparator)
  | value (literal : StoredLiteral)
  deriving DecidableEq

namespace StoredLabel

/-- The stored form of a label. -/
def ofSymbol : Symbol → StoredLabel
  | .rule r => rule (.ofRule r)
  | .terminal (.name text) => name text
  | .terminal .state => state
  | .terminal .action => action
  | .terminal (.op comparator) => op comparator
  | .terminal (.value literal) => value (.ofLiteral literal)

/-- The label of a stored form, over a catalog of `count` predicates. -/
def resolve (count : Nat) : StoredLabel → Except LabelFault Symbol
  | rule r => (r.resolve count).map .rule
  | name text => .ok (.terminal (.name text))
  | state => .ok (.terminal .state)
  | action => .ok (.terminal .action)
  | op comparator => .ok (.terminal (.op comparator))
  | value literal => literal.resolve.map fun v => .terminal (.value v)

/-- The tag of an operator. -/
def comparatorTag : Comparator → Nat
  | .equal => 0
  | .notEqual => 1
  | .greater => 2
  | .greaterOrEqual => 3
  | .less => 4
  | .lessOrEqual => 5

/-- An operator. -/
def readComparator : Reader Comparator := do
  match Comparator.all[← Field.readNumber 4]? with
  | some comparator => return comparator
  | none => Reader.fail

/-- The bytes of a stored label. -/
def write : StoredLabel → List UInt8
  | rule r => Field.writeNumber 0 ++ r.write
  | name text => Field.writeNumber 1 ++ Field.writeText text
  | state => Field.writeNumber 2
  | action => Field.writeNumber 3
  | op comparator => Field.writeNumber 4 ++ Field.writeNumber (comparatorTag comparator)
  | value literal => Field.writeNumber 5 ++ literal.write

/-- A stored label. -/
def read : Reader StoredLabel := do
  match ← Field.readNumber 4 with
  | 0 => return rule (← StoredRule.read)
  | 1 => return name (← Field.readText)
  | 2 => return state
  | 3 => return action
  | 4 => return op (← readComparator)
  | 5 => return value (← StoredLiteral.read)
  | _ => Reader.fail

theorem all_getElem?_comparatorTag (c : Comparator) :
    Comparator.all[comparatorTag c]? = some c := by
  cases c <;> rfl

end StoredLabel

end ScoreScript
