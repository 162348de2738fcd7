/-!
# The battle vocabulary

Four closed lists of names: elemental types, weather conditions, status conditions and stats.
Each list has one order, `all`, one spelling per member, `name`, and a search by spelling.

* `Element.ofName?_name`, `Weather.ofName?_name`, `Status.ofName?_name`, `Stat.ofName?_name` —
  every member is found again under its own spelling;
* `Element.mem_all` and its siblings — the lists are complete.
-/

namespace ScoreScript

/-! ### Elemental types -/

/-- Elemental type of a move or of a combatant. -/
inductive Element where
  | bug | dark | dragon | electric | fairy | fighting | fire | flying | ghost
  | grass | ground | ice | normal | poison | psychic | rock | steel | water
  deriving DecidableEq

namespace Element

/-- Every elemental type, in the order in which values are offered. -/
def all : List Element :=
  [bug, dark, dragon, electric, fairy, fighting, fire, flying, ghost,
    grass, ground, ice, normal, poison, psychic, rock, steel, water]

/-- The spelling of an elemental type. -/
def name : Element → String
  | bug => "BUG" | dark => "DARK" | dragon => "DRAGON" | electric => "ELECTRIC"
  | fairy => "FAIRY" | fighting => "FIGHTING" | fire => "FIRE" | flying => "FLYING"
  | ghost => "GHOST" | grass => "GRASS" | ground => "GROUND" | ice => "ICE"
  | normal => "NORMAL" | poison => "POISON" | psychic => "PSYCHIC" | rock => "ROCK"
  | steel => "STEEL" | water => "WATER"

/-- The elemental type with exactly this spelling. -/
def ofName? (text : String) : Option Element :=
  all.find? (·.name == text)

theorem mem_all (e : Element) : e ∈ all := by cases e <;> decide

theorem ofName?_name (e : Element) : ofName? e.name = some e := by cases e <;> decide

end Element

/-! ### Weather -/

/-- Weather over the whole field. -/
inductive Weather where
  | deltaStream | desolateLand | hail | primordialSea | rainDance | sandstorm | sunnyDay
  deriving DecidableEq

namespace Weather

/-- Every weather, in the order in which values are offered. -/
def all : List Weather :=
  [deltaStream, desolateLand, hail, primordialSea, rainDance, sandstorm, sunnyDay]

/-- The spelling of a weather. -/
def name : Weather → String
  | deltaStream => "DELTASTREAM" | desolateLand => "DESOLATELAND" | hail => "HAIL"
  | primordialSea => "PRIMORDIALSEA" | rainDance => "RAINDANCE" | sandstorm => "SANDSTORM"
  | sunnyDay => "SUNNYDAY"

/-- The weather with exactly this spelling. -/
def ofName? (text : String) : Option Weather :=
  all.find? (·.name == text)

theorem mem_all (w : Weather) : w ∈ all := by cases w <;> decide

theorem ofName?_name (w : Weather) : ofName? w.name = some w := by cases w <;> decide

end Weather

/-! ### Status conditions -/

/-- A lasting condition of one combatant. -/
inductive Status where
  | burn | faint | freeze | paralysis | poison | sleep | toxic
  deriving DecidableEq

namespace Status

/-- Every status condition, in the order in which values are offered. -/
def all : List Status :=
  [burn, faint, freeze, paralysis, poison, sleep, toxic]

/-- The spelling of a status condition. -/
def name : Status → String
  | burn => "BRN" | faint => "FNT" | freeze => "FRZ" | paralysis => "PAR"
  | poison => "PSN" | sleep => "SLP" | toxic => "TOX"

/-- The status condition with exactly this spelling. -/
def ofName? (text : String) : Option Status :=
  all.find? (·.name == text)

theorem mem_all (s : Status) : s ∈ all := by cases s <;> decide

theorem ofName?_name (s : Status) : ofName? s.name = some s := by cases s <;> decide

end Status

/-! ### Stats -/

/-- A stat of a combatant.  Accuracy and evasion exist only as modifiers during a battle. -/
inductive Stat where
  | hp | attack | defense | specialAttack | specialDefense | speed | accuracy | evasion
  deriving DecidableEq

namespace Stat

/-- Every stat, in the order in which values are offered. -/
def all : List Stat :=
  [hp, attack, defense, specialAttack, specialDefense, speed, accuracy, evasion]

/-- The spelling of a stat. -/
def name : Stat → String
  | hp => "hp" | attack => "atk" | defense => "def" | specialAttack => "spa"
  | specialDefense => "spd" | speed => "spe" | accuracy => "accuracy" | evasion => "evasion"

/-- The stat with exactly this spelling. -/
def ofName? (text : String) : Option Stat :=
  all.find? (·.name == text)

/-- A base stat is one that a combatant has outside a battle. -/
def isBase : Stat → Bool
  | accuracy | evasion => false
  | _ => true

theorem mem_all (s : Stat) : s ∈ all := by cases s <;> decide

theorem ofName?_name (s : Stat) : ofName? s.name = some s := by cases s <;> decide

end Stat

end ScoreScript
