/-!
# Capabilities

Every predicate needs a capability, and a catalog is built for a set of enabled ones.  A set of
capabilities is an eight-bit word with six named flags; the two remaining bits are kept as they
are and have no name.

* `Capabilities.ofTag?` — the flag or the preset with a tag;
* `Capabilities.intersects` — two sets meet when some bit is in both;
* `Capabilities.text` — the tags of the flags in a set.
-/

namespace ScoreScript

/-- A set of capabilities. -/
structure Capabilities where
  bits : UInt8
  deriving DecidableEq

namespace Capabilities

/-- The flags with their tags, lowest bit first. -/
def flags : List (String × Capabilities) :=
  [("manual_statcheck", ⟨1⟩), ("auto_statcheck", ⟨2⟩), ("auto_statuscheck", ⟨4⟩),
    ("misc_movechecks", ⟨8⟩), ("cheat", ⟨16⟩), ("core", ⟨32⟩)]

/-- The named sets of several flags. -/
def presets : List (String × Capabilities) :=
  [("basic", ⟨41⟩), ("advanced", ⟨46⟩), ("basic_with_cheating", ⟨57⟩), ("all", ⟨63⟩)]

/-- The capability of a predicate that names none. -/
def core : Capabilities := ⟨32⟩

/-- All six flags. -/
def all : Capabilities := ⟨63⟩

/-- The flag or preset with exactly this tag. -/
def ofTag? (tag : String) : Option Capabilities :=
  (flags ++ presets).lookup tag

/-- The set has every bit of `other`. -/
def contains (a b : Capabilities) : Bool := a.bits &&& b.bits == b.bits

/-- The two sets have a bit in common. -/
def intersects (a b : Capabilities) : Bool := a.bits &&& b.bits != 0

/-- The bits of either set. -/
def union (a b : Capabilities) : Capabilities := ⟨a.bits ||| b.bits⟩

/-- The bits of both sets. -/
def inter (a b : Capabilities) : Capabilities := ⟨a.bits &&& b.bits⟩

/-- The bits of the first set that the second lacks. -/
def difference (a b : Capabilities) : Capabilities := ⟨a.bits &&& ~~~b.bits⟩

/-- The flags that the set lacks. -/
def complement (a : Capabilities) : Capabilities := ⟨~~~a.bits &&& all.bits⟩

/-- The tags of the flags in the set, joined by bars; a set without any bit is `none`. -/
def text (a : Capabilities) : String :=
  if a.bits = 0 then "none"
  else " | ".intercalate ((flags.filter fun flag => a.contains flag.2).map (·.1))

end Capabilities

end ScoreScript
