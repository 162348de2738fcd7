import ScoreScript.Numeric.Rounding

/-!
# Little-endian bytes

A number as a fixed count of bytes, the lowest first.

* `LittleEndian.decode_encode` — reading gives the number back, less what the bytes cannot hold;
* `LittleEndian.encode_decode` — writing gives the bytes back;
* `LittleEndian.encode_length` — the count of bytes.
-/

namespace ScoreScript.LittleEndian

/-- The lowest `count` bytes of a number. -/
def encode : (count n : Nat) → List UInt8
  | 0, _ => []
  | count + 1, n => UInt8.ofNat n :: encode count (n / 256)

/-- The number made of bytes. -/
def decode : List UInt8 → Nat
  | [] => 0
  | b :: rest => b.toNat + 256 * decode rest

theorem encode_length (count n : Nat) : (encode count n).length = count := by
  induction count generalizing n with
  | zero => rfl
  | succ count ih => rw [encode, List.length_cons, ih]

theorem decode_encode (count n : Nat) : decode (encode count n) = n % 256 ^ count := by
  induction count generalizing n with
  | zero => simp [encode, decode, Nat.mod_one]
  | succ count ih =>
    rw [encode, decode, ih, Nat.pow_succ, Nat.mul_comm (256 ^ count) 256, Nat.mod_mul]
    simp

theorem decode_encode_of_lt {count n : Nat} (h : n < 256 ^ count) :
    decode (encode count n) = n := by
  rw [decode_encode, Nat.mod_eq_of_lt h]

theorem encode_decode (bytes : List UInt8) : encode bytes.length (decode bytes) = bytes := by
  induction bytes with
  | nil => rfl
  | cons b rest ih =>
    have hlow : UInt8.ofNat (b.toNat + 256 * decode rest) = b := by
      rw [← UInt8.toNat_inj, UInt8.toNat_ofNat']
      have hb := b.toNat_lt
      omega
    have hrest : (b.toNat + 256 * decode rest) / 256 = decode rest := by
      have hb := b.toNat_lt
      omega
    rw [List.length_cons, decode, encode, hlow, hrest, ih]

theorem decode_lt (bytes : List UInt8) : decode bytes < 256 ^ bytes.length := by
  induction bytes with
  | nil => simp [decode]
  | cons b rest ih =>
    have hb := b.toNat_lt
    rw [decode, List.length_cons, Nat.pow_succ]
    omega

end ScoreScript.LittleEndian
