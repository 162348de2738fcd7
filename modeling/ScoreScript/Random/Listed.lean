import ScoreScript.Random.Stream

/-!
# The listed source

A source that gives a list of 64-bit words first and then goes on with a mixed counter.  A word of
32 bits is the low half of one of 64.

* `Listed.next` — the next listed word, or a mixed counter when the list is used up;
* `Listed.source` — the source that gives them.
-/

namespace ScoreScript.Listed

/-- The words to come and the counter behind them. -/
structure State where
  words : List UInt64
  counter : UInt64

/-- The step of the counter, an odd constant. -/
def gamma : UInt64 := 0x9E3779B97F4A7C15

/-- The word that is made of a counter. -/
def mix (counter : UInt64) : UInt64 :=
  let z := (counter ^^^ (counter >>> 30)) * 0xBF58476D1CE4E5B9
  let z := (z ^^^ (z >>> 27)) * 0x94D049BB133111EB
  z ^^^ (z >>> 31)

/-- The next word of 64 bits. -/
def next (s : State) : UInt64 × State :=
  match s.words with
  | word :: words => (word, { s with words := words })
  | [] => (mix (s.counter + gamma), { s with counter := s.counter + gamma })

/-- The words that follow a state. -/
def source : WordSource State where
  next32 s := let (word, s) := next s; (word.toUInt32, s)
  next64 := next

end ScoreScript.Listed
