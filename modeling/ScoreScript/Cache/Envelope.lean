import ScoreScript.Cache.Payload

/-!
# Envelopes

A stored script is a header of thirty-two bytes followed by the payload.  The header holds four
letters, the version of the format and that of the engine, flags, the length of the payload and
half of its hash.  Version of the engine and flags are not looked at, nor are bytes behind the
payload.

* `Envelope.pack` — header and payload;
* `Envelope.unpack` — the payload, or what is wrong with the envelope;
* `Envelope.Holds`, `Envelope.unpack_eq_ok_iff` — which envelopes open;
* `Envelope.unpack_pack` — packing can be undone.
-/

namespace ScoreScript

/-- Why an envelope does not open. -/
inductive EnvelopeError where
  | badMagic
  | incompatibleVersion (found : Nat)
  | checksumMismatch
  | lengthMismatch (expected actual : Nat)
  deriving DecidableEq

namespace Envelope

/-- The letters in front. -/
def magic : List UInt8 := [0x42, 0x53, 0x43, 0x52]

/-- The version of the format. -/
def version : Nat := 1

/-- The version of the engine. -/
def engine : Nat := 1

/-- The length of the header. -/
def headerSize : Nat := 32

/-- The half of the hash that the header holds. -/
def checksum (payload : List UInt8) : List UInt8 :=
  (Blake3.hash payload).take 16

/-- The header of a payload. -/
def header (payload : List UInt8) : List UInt8 :=
  magic ++ LittleEndian.encode 2 version ++ LittleEndian.encode 2 engine ++
    LittleEndian.encode 4 0 ++ LittleEndian.encode 4 payload.length ++ checksum payload

/-- Header and payload. -/
def pack (payload : List UInt8) : List UInt8 :=
  header payload ++ payload

/-- The bytes from a position on, as many as asked for. -/
def slice (start count : Nat) (bytes : List UInt8) : List UInt8 :=
  (bytes.drop start).take count

/-- The payload of an envelope. -/
def unpack (bytes : List UInt8) : Except EnvelopeError (List UInt8) :=
  if bytes.length < headerSize then .error (.lengthMismatch headerSize bytes.length)
  else if slice 0 4 bytes ≠ magic then .error .badMagic
  else if LittleEndian.decode (slice 4 2 bytes) ≠ version then
    .error (.incompatibleVersion (LittleEndian.decode (slice 4 2 bytes)))
  else
    let length := LittleEndian.decode (slice 12 4 bytes)
    if bytes.length < headerSize + length then
      .error (.lengthMismatch length (bytes.length - headerSize))
    else
      let payload := slice headerSize length bytes
      if checksum payload ≠ slice 16 16 bytes then .error .checksumMismatch
      else .ok payload

theorem checksum_length (payload : List UInt8) : (checksum payload).length = 16 := by
  rw [checksum, List.length_take, Blake3.hash_length]
  rfl

theorem header_length (payload : List UInt8) : (header payload).length = headerSize := by
  simp [header, magic, checksum_length, LittleEndian.encode_length, headerSize]

theorem slice_append (before middle after : List UInt8) {start count : Nat}
    (hstart : before.length = start) (hcount : middle.length = count) :
    slice start count (before ++ (middle ++ after)) = middle := by
  subst hstart hcount
  simp [slice]

theorem slice_of_eq {bytes before middle after : List UInt8} {start count : Nat}
    (h : bytes = before ++ (middle ++ after)) (hstart : before.length = start)
    (hcount : middle.length = count) : slice start count bytes = middle := by
  rw [h]
  exact slice_append before middle after hstart hcount

/-! ### Parts of a packed payload -/

section Packed

variable (payload : List UInt8)

theorem length_pack : (pack payload).length = headerSize + payload.length := by
  rw [pack, List.length_append, header_length]

theorem drop_pack : (pack payload).drop headerSize = payload := by
  rw [pack, ← header_length payload, List.drop_left]

theorem slice_magic_pack : slice 0 4 (pack payload) = magic := by
  have hsplit : pack payload = [] ++ (magic ++ (pack payload).drop 4) := rfl
  exact slice_of_eq hsplit rfl rfl

theorem slice_version_pack : slice 4 2 (pack payload) = LittleEndian.encode 2 version := by
  have hsplit : pack payload =
      magic ++ (LittleEndian.encode 2 version ++ (pack payload).drop 6) := rfl
  exact slice_of_eq hsplit rfl rfl

theorem slice_length_pack : slice 12 4 (pack payload) = LittleEndian.encode 4 payload.length := by
  have hsplit : pack payload =
      (magic ++ LittleEndian.encode 2 version ++ LittleEndian.encode 2 engine ++
        LittleEndian.encode 4 0) ++ (LittleEndian.encode 4 payload.length ++
          (checksum payload ++ payload)) := by
    simp only [pack, header, List.append_assoc]
  exact slice_of_eq hsplit rfl (LittleEndian.encode_length _ _)

theorem slice_checksum_pack : slice 16 16 (pack payload) = checksum payload := by
  have hsplit : pack payload =
      (magic ++ LittleEndian.encode 2 version ++ LittleEndian.encode 2 engine ++
        LittleEndian.encode 4 0 ++ LittleEndian.encode 4 payload.length) ++
          (checksum payload ++ payload) := by
    simp only [pack, header, List.append_assoc]
  exact slice_of_eq hsplit (by simp [magic, LittleEndian.encode_length]) (checksum_length _)

theorem slice_payload_pack : slice headerSize payload.length (pack payload) = payload := by
  rw [slice, drop_pack, List.take_length]

end Packed

/-- The envelope is sound and holds the payload. -/
structure Holds (bytes payload : List UInt8) : Prop where
  headerSize_le : headerSize ≤ bytes.length
  length_lt : payload.length < 2 ^ (32 : Nat)
  magic_eq : slice 0 4 bytes = magic
  version_eq : slice 4 2 bytes = LittleEndian.encode 2 version
  length_eq : slice 12 4 bytes = LittleEndian.encode 4 payload.length
  checksum_eq : slice 16 16 bytes = checksum payload
  payload_eq : slice headerSize payload.length bytes = payload

theorem holds_pack {payload : List UInt8} (h : payload.length < 2 ^ (32 : Nat)) :
    Holds (pack payload) payload where
  headerSize_le := length_pack payload ▸ Nat.le_add_right _ _
  length_lt := h
  magic_eq := slice_magic_pack payload
  version_eq := slice_version_pack payload
  length_eq := slice_length_pack payload
  checksum_eq := slice_checksum_pack payload
  payload_eq := slice_payload_pack payload

namespace Holds

variable {bytes payload : List UInt8}

theorem length_le (h : Holds bytes payload) : headerSize + payload.length ≤ bytes.length := by
  have hlength := congrArg List.length h.payload_eq
  have hheader := h.headerSize_le
  rw [slice, List.length_take, List.length_drop] at hlength
  omega

theorem decode_length (h : Holds bytes payload) :
    LittleEndian.decode (slice 12 4 bytes) = payload.length := by
  have hlt := h.length_lt
  rw [h.length_eq, LittleEndian.decode_encode_of_lt (by omega)]

end Holds

theorem slice_eq_encode {start count : Nat} {bytes : List UInt8}
    (h : start + count ≤ bytes.length) :
    slice start count bytes =
      LittleEndian.encode count (LittleEndian.decode (slice start count bytes)) := by
  have hlength : (slice start count bytes).length = count := by
    rw [slice, List.length_take, List.length_drop]
    omega
  have hencode := LittleEndian.encode_decode (slice start count bytes)
  rw [hlength] at hencode
  exact hencode.symm

/-- An envelope opens when it is sound, and gives what it holds. -/
theorem unpack_eq_ok_iff {bytes payload : List UInt8} :
    unpack bytes = .ok payload ↔ Holds bytes payload := by
  constructor
  · intro h
    unfold unpack at h
    split at h
    · cases h
    rename_i hheader
    split at h
    · cases h
    rename_i hmagic
    split at h
    · cases h
    rename_i hversion
    simp only at h
    split at h
    · cases h
    rename_i hlength
    split at h
    · cases h
    rename_i hchecksum
    have hsize : headerSize = 32 := rfl
    obtain rfl := Except.ok.inj h
    have hcount : (slice headerSize (LittleEndian.decode (slice 12 4 bytes)) bytes).length =
        LittleEndian.decode (slice 12 4 bytes) := by
      rw [slice, List.length_take, List.length_drop]
      omega
    have hfield : (slice 12 4 bytes).length = 4 := by
      rw [slice, List.length_take, List.length_drop]
      omega
    have hlt := LittleEndian.decode_lt (slice 12 4 bytes)
    rw [hfield] at hlt
    refine ⟨by omega, by rw [hcount]; exact hlt, Decidable.not_not.1 hmagic, ?_, ?_, ?_, ?_⟩
    · rw [← Decidable.not_not.1 hversion]
      exact slice_eq_encode (by omega)
    · rw [hcount]
      exact slice_eq_encode (by omega)
    · exact (Decidable.not_not.1 hchecksum).symm
    · rw [hcount]
  · intro h
    have hlength := h.length_le
    have hheader := h.headerSize_le
    have hdecode := h.decode_length
    unfold unpack
    rw [if_neg (by omega), if_neg (by rw [h.magic_eq]; simp), h.version_eq, if_neg (by decide)]
    simp only [hdecode]
    rw [if_neg (by omega), h.payload_eq, if_neg (by rw [h.checksum_eq]; simp)]

theorem unpack_pack {payload : List UInt8} (h : payload.length < 2 ^ (32 : Nat)) :
    unpack (pack payload) = .ok payload :=
  unpack_eq_ok_iff.2 (holds_pack h)

end Envelope

end ScoreScript
