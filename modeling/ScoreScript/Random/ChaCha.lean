import ScoreScript.Random.Stream

/-!
# The seeded source

The words of a seed are those of the ChaCha stream cipher with twelve rounds, in the order of the
cipher's output.  The key is made from the seed by a linear congruential generator with a permuted
output; the nonce is zero and the block counter starts at zero.

* `ChaCha.block` — the sixteen words of one block;
* `ChaCha.ofSeed` — the state from which the words of a seed follow;
* `ChaCha.source` — a word of 64 bits is made of two words, the first one low.
-/

namespace ScoreScript.ChaCha

/-- The number of words of a block. -/
abbrev blockLength : Nat := 16

/-- Sixteen words: four constants, eight words of key, two of counter and two of nonce. -/
abbrev Block := Vector UInt32 blockLength

/-- Rotation to the left. -/
def rotateLeft (x n : UInt32) : UInt32 :=
  (x <<< n) ||| (x >>> (32 - n))

/-- Rotation to the right. -/
def rotateRight (x n : UInt32) : UInt32 :=
  (x >>> n) ||| (x <<< (32 - n))

/-- Four additions, each followed by a rotated exclusive or. -/
def quarterRound (v : Block) (a b c d : Fin blockLength) : Block :=
  let v := v.set a (v[a] + v[b])
  let v := v.set d (rotateLeft (v[d] ^^^ v[a]) 16)
  let v := v.set c (v[c] + v[d])
  let v := v.set b (rotateLeft (v[b] ^^^ v[c]) 12)
  let v := v.set a (v[a] + v[b])
  let v := v.set d (rotateLeft (v[d] ^^^ v[a]) 8)
  let v := v.set c (v[c] + v[d])
  v.set b (rotateLeft (v[b] ^^^ v[c]) 7)

/-- A round over the columns and a round over the diagonals. -/
def doubleRound (v : Block) : Block :=
  haveI : NeZero blockLength := ⟨by decide⟩
  let v := quarterRound v 0 4 8 12
  let v := quarterRound v 1 5 9 13
  let v := quarterRound v 2 6 10 14
  let v := quarterRound v 3 7 11 15
  let v := quarterRound v 0 5 10 15
  let v := quarterRound v 1 6 11 12
  let v := quarterRound v 2 7 8 13
  quarterRound v 3 4 9 14

/-- As many double rounds as asked for. -/
def doubleRounds : Nat → Block → Block
  | 0, v => v
  | n + 1, v => doubleRounds n (doubleRound v)

/-- The block before its rounds. -/
def initial (key : Vector UInt32 8) (counter : UInt64) : Block :=
  let constants : Vector UInt32 4 := #v[0x61707865, 0x3320646e, 0x79622d32, 0x6b206574]
  let position : Vector UInt32 4 := #v[counter.toUInt32, (counter >>> 32).toUInt32, 0, 0]
  constants ++ key ++ position

/-- Twelve rounds, then the initial block added word by word. -/
def block (key : Vector UInt32 8) (counter : UInt64) : Block :=
  (doubleRounds 6 (initial key counter)).zipWith (· + ·) (initial key counter)

/-- A key, the counter of the next block and the words of the current block that are left. -/
structure State where
  key : Vector UInt32 8
  counter : UInt64
  left : List UInt32

/-- The next word of the cipher's output. -/
def nextWord (s : State) : UInt32 × State :=
  match s.left with
  | word :: left => (word, { s with left := left })
  | [] =>
    let words := block s.key s.counter
    (words[0], { s with counter := s.counter + 1, left := words.toList.tail })

/-- Two words of output as one, the first one low. -/
def nextPair (s : State) : UInt64 × State :=
  let (low, s) := nextWord s
  let (high, s) := nextWord s
  ((high.toUInt64 <<< 32) ||| low.toUInt64, s)

/-- The words that follow a state. -/
def source : WordSource State where
  next32 := nextWord
  next64 := nextPair

/-! ### Seeds -/

/-- One step of the congruential generator. -/
def seedStep (s : UInt64) : UInt64 :=
  s * 6364136223846793005 + 11634580027462260723

/-- The output of the congruential generator in a state. -/
def seedWord (s : UInt64) : UInt32 :=
  rotateRight (((s >>> 18) ^^^ s) >>> 27).toUInt32 (s >>> 59).toUInt32

/-- The states of the generator after one step and after more. -/
def seedStates : Nat → UInt64 → List UInt64
  | 0, _ => []
  | n + 1, s => seedStep s :: seedStates n (seedStep s)

theorem seedStates_length (n : Nat) (s : UInt64) : (seedStates n s).length = n := by
  induction n generalizing s with
  | zero => rfl
  | succ n ih => rw [seedStates, List.length_cons, ih]

/-- The key of a seed. -/
def keyOfSeed (seed : UInt64) : Vector UInt32 8 :=
  ⟨((seedStates 8 seed).map seedWord).toArray, by simp [seedStates_length]⟩

/-- The state from which the words of a seed follow. -/
def ofSeed (seed : UInt64) : State :=
  ⟨keyOfSeed seed, 0, []⟩

end ScoreScript.ChaCha
