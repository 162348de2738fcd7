import ScoreScript.Proofs.Cache.Acceptance

/-!
# Corrupted files

The checksum binds the payload, and the header binds everything else that is read.  A file that
keeps the checksum of a stored script, or its payload together with the length, loads exactly when
it agrees with the stored script wherever a reader looks: everywhere but at the version of the
engine, at the flags and behind the payload.  What it loads as is what the stored script loads as.

That hashes tell payloads apart is assumed of the payloads at hand alone: the one that was stored
and the one that the damaged file marks off.

* `AgreeOn` — two byte strings agree from one position up to another;
* `Envelope.SameContent` — agreement wherever a reader looks;
* `Envelope.holds_iff_sameContent` — which envelopes hold the payload that was packed;
* `Envelope.noCollision_set_pack`, `Envelope.not_sameContent_set` — files with one other byte;
* `Generator.load_damaged_iff` — which damaged files load.
-/

namespace ScoreScript

/-! ### Agreement -/

/-- Two byte strings agree from one position up to another. -/
def AgreeOn (start stop : Nat) (a b : List UInt8) : Prop :=
  ∀ i, start ≤ i → i < stop → b[i]? = a[i]?

namespace AgreeOn

variable {start stop : Nat} {a b : List UInt8}

theorem mono {start' stop' : Nat} (h : AgreeOn start stop a b) (hstart : start ≤ start')
    (hstop : stop' ≤ stop) : AgreeOn start' stop' a b :=
  fun i hlo hhi => h i (Nat.le_trans hstart hlo) (Nat.lt_of_lt_of_le hhi hstop)

theorem append {middle : Nat} (h : AgreeOn start middle a b) (h' : AgreeOn middle stop a b) :
    AgreeOn start stop a b := by
  intro i hlo hhi
  by_cases hi : i < middle
  · exact h i hlo hi
  · exact h' i (by omega) hhi

theorem iff_slice {count : Nat} :
    AgreeOn start (start + count) a b ↔
      Envelope.slice start count b = Envelope.slice start count a := by
  constructor
  · intro h
    apply List.ext_getElem?
    intro i
    rw [Envelope.slice, Envelope.slice, List.getElem?_take, List.getElem?_take, List.getElem?_drop,
      List.getElem?_drop]
    by_cases hi : i < count
    · rw [if_pos hi, if_pos hi, h (start + i) (Nat.le_add_right _ _) (by omega)]
    · rw [if_neg hi, if_neg hi]
  · intro h i hlo hhi
    have hi := congrArg (·[i - start]?) h
    simp only [Envelope.slice, List.getElem?_take, List.getElem?_drop] at hi
    rw [if_pos (by omega), if_pos (by omega), show start + (i - start) = i by omega] at hi
    exact hi

end AgreeOn

namespace Envelope

/-- A file at least as long as a stored one that agrees with it wherever a reader looks: on letters
and version of the format, and on length, checksum and payload. -/
structure SameContent (stored bytes : List UInt8) : Prop where
  length_le : stored.length ≤ bytes.length
  front : AgreeOn 0 6 stored bytes
  rest : AgreeOn 12 stored.length stored bytes

/-- The bytes that the length in the header marks off behind the header. -/
def marked (bytes : List UInt8) : List UInt8 :=
  slice headerSize (LittleEndian.decode (slice 12 4 bytes)) bytes

/-- If what a file marks off has the checksum of a payload, then it is that payload. -/
def NoCollision (payload bytes : List UInt8) : Prop :=
  checksum (marked bytes) = checksum payload → marked bytes = payload

/-- The file keeps the checksum of a stored one. -/
def KeepsChecksum (stored bytes : List UInt8) : Prop :=
  AgreeOn 16 32 stored bytes

/-- The file keeps length and payload of a stored one. -/
def KeepsPayload (stored bytes : List UInt8) : Prop :=
  AgreeOn 12 16 stored bytes ∧ AgreeOn headerSize stored.length stored bytes

variable {payload bytes : List UInt8}

theorem Holds.marked_eq (h : Holds bytes payload) : marked bytes = payload := by
  rw [marked, h.decode_length, h.payload_eq]

/-! ### Which envelopes hold what was packed -/

/-- Wherever a reader looks, an envelope with the payload is as it was packed, and then it holds the
payload. -/
theorem holds_iff_sameContent (hlength : payload.length < 2 ^ (32 : Nat)) :
    Holds bytes payload ↔ SameContent (pack payload) bytes := by
  have hpack := length_pack payload
  have hsize : headerSize = 32 := rfl
  constructor
  · intro h
    have hle := h.length_le
    have hletters : AgreeOn 0 4 (pack payload) bytes :=
      AgreeOn.iff_slice.2 (h.magic_eq.trans (slice_magic_pack payload).symm)
    have hversion : AgreeOn 4 6 (pack payload) bytes :=
      AgreeOn.iff_slice.2 (h.version_eq.trans (slice_version_pack payload).symm)
    have hcount : AgreeOn 12 16 (pack payload) bytes :=
      AgreeOn.iff_slice.2 (h.length_eq.trans (slice_length_pack payload).symm)
    have hsum : AgreeOn 16 32 (pack payload) bytes :=
      AgreeOn.iff_slice.2 (h.checksum_eq.trans (slice_checksum_pack payload).symm)
    have hbody : AgreeOn 32 (32 + payload.length) (pack payload) bytes :=
      AgreeOn.iff_slice.2 (h.payload_eq.trans (slice_payload_pack payload).symm)
    refine ⟨by omega, hletters.append hversion, ?_⟩
    rw [hpack, hsize]
    exact hcount.append (hsum.append hbody)
  · intro h
    have hle := h.length_le
    have hrest := h.rest
    rw [hpack] at hle hrest
    refine ⟨by omega, hlength, ?_, ?_, ?_, ?_, ?_⟩
    · rw [← slice_magic_pack payload]
      exact AgreeOn.iff_slice.1 (h.front.mono (Nat.le_refl 0) (by decide))
    · rw [← slice_version_pack payload]
      exact AgreeOn.iff_slice.1 (h.front.mono (by decide) (by decide))
    · rw [← slice_length_pack payload]
      exact AgreeOn.iff_slice.1 (hrest.mono (by decide) (by omega))
    · rw [← slice_checksum_pack payload]
      exact AgreeOn.iff_slice.1 (hrest.mono (by decide) (by omega))
    · conv => rhs; rw [← slice_payload_pack payload]
      exact AgreeOn.iff_slice.1 (hrest.mono (by decide) (Nat.le_refl _))

theorem SameContent.keepsChecksum (h : SameContent (pack payload) bytes) :
    KeepsChecksum (pack payload) bytes := by
  refine h.rest.mono (by decide) ?_
  rw [length_pack]
  exact Nat.le_add_right _ _

/-- What was packed is no collision with itself. -/
theorem noCollision_pack (hlength : payload.length < 2 ^ (32 : Nat)) :
    NoCollision payload (pack payload) :=
  fun _ => (holds_pack hlength).marked_eq

/-- With the checksum kept, nothing but the stored payload is accepted. -/
theorem eq_of_keepsChecksum {found : List UInt8} (hunique : NoCollision payload bytes)
    (hkeeps : KeepsChecksum (pack payload) bytes) (h : Holds bytes found) : found = payload := by
  have hsum : slice 16 16 bytes = slice 16 16 (pack payload) := AgreeOn.iff_slice.1 hkeeps
  rw [h.checksum_eq, slice_checksum_pack] at hsum
  rw [← h.marked_eq] at hsum ⊢
  exact hunique hsum

/-- With length and payload kept, nothing but the stored payload is found. -/
theorem eq_of_keepsPayload {found : List UInt8} (hlength : payload.length < 2 ^ (32 : Nat))
    (hkeeps : KeepsPayload (pack payload) bytes) (h : Holds bytes found) : found = payload := by
  obtain ⟨hcount, hbody⟩ := hkeeps
  have hcount : slice 12 4 bytes = slice 12 4 (pack payload) := AgreeOn.iff_slice.1 hcount
  have hdecode := h.decode_length
  rw [hcount, (holds_pack hlength).decode_length] at hdecode
  rw [length_pack] at hbody
  rw [← h.payload_eq, ← hdecode, AgreeOn.iff_slice.1 hbody, slice_payload_pack]

/-- Nothing that was cut off behind holds anything. -/
theorem not_holds_take (hlength : payload.length < 2 ^ (32 : Nat)) {count : Nat}
    (hcount : count < (pack payload).length) (found : List UInt8) :
    ¬ Holds ((pack payload).take count) found := by
  intro h
  have hheader := h.headerSize_le
  have hle := h.length_le
  have hsize : headerSize = 32 := rfl
  have hfront : AgreeOn 12 16 (pack payload) ((pack payload).take count) := by
    intro i _ hi
    rw [List.length_take] at hheader
    exact List.getElem?_take_of_lt (by omega)
  have hfield : slice 12 4 ((pack payload).take count) = slice 12 4 (pack payload) :=
    AgreeOn.iff_slice.1 hfront
  have hdecode := h.decode_length
  rw [hfield, (holds_pack hlength).decode_length] at hdecode
  rw [length_pack] at hcount
  rw [List.length_take] at hle
  omega

/-- A file with another version of the engine, other flags and a tail. -/
def relabelled (bytes info tail : List UInt8) : List UInt8 :=
  bytes.take 6 ++ info ++ bytes.drop 12 ++ tail

/-- What relabels a file is not looked at. -/
theorem sameContent_relabelled {stored info : List UInt8} (hlength : 12 ≤ stored.length)
    (hinfo : info.length = 6) (tail : List UInt8) :
    SameContent stored (relabelled stored info tail) where
  length_le := by
    simp only [relabelled, List.length_append, List.length_take, List.length_drop]
    omega
  front := by
    intro i _ hi
    have htake : i < (stored.take 6).length := by
      rw [List.length_take]
      omega
    rw [relabelled, List.append_assoc, List.append_assoc, List.getElem?_append_left htake,
      List.getElem?_take_of_lt hi]
  rest := by
    intro i hlo hhi
    have hfront : (stored.take 6 ++ info).length = 12 := by
      rw [List.length_append, List.length_take]
      omega
    have hmiddle : i - 12 < (stored.drop 12).length := by
      rw [List.length_drop]
      omega
    rw [relabelled, List.append_assoc, List.getElem?_append_right (by omega), hfront,
      List.getElem?_append_left hmiddle, List.getElem?_drop, Nat.add_sub_cancel' hlo]

/-! ### One other byte -/

section Set

variable {stored : List UInt8} {i : Nat} {byte : UInt8}

theorem keepsChecksum_set (hi : headerSize ≤ i) : KeepsChecksum stored (stored.set i byte) := by
  intro j _ hj
  have hsize : headerSize = 32 := rfl
  exact List.getElem?_set_ne (by omega)

theorem not_sameContent_set (hi : headerSize ≤ i) (hlt : i < stored.length)
    (hother : stored[i]? ≠ some byte) : ¬ SameContent stored (stored.set i byte) := by
  intro h
  have hsize : headerSize = 32 := rfl
  have hsame := h.rest i (by omega) hlt
  rw [List.getElem?_set_self hlt] at hsame
  exact hother hsame.symm

/-- What a packed payload marks off once a byte behind the header is another one. -/
theorem marked_set_pack (hlength : payload.length < 2 ^ (32 : Nat)) :
    marked ((pack payload).set (headerSize + i) byte) = payload.set i byte := by
  have hsize : headerSize = 32 := rfl
  have hcount : AgreeOn 12 16 (pack payload) ((pack payload).set (headerSize + i) byte) :=
    fun j _ hj => List.getElem?_set_ne (by omega)
  have hfield : slice 12 4 ((pack payload).set (headerSize + i) byte) = slice 12 4 (pack payload) :=
    AgreeOn.iff_slice.1 hcount
  have hbody : (pack payload).set (headerSize + i) byte = header payload ++ payload.set i byte := by
    rw [pack, List.set_append_right _ _ (by rw [header_length]; exact Nat.le_add_right _ _),
      header_length, Nat.add_sub_cancel_left]
  rw [marked, hfield, (holds_pack hlength).decode_length, slice, hbody, ← header_length payload,
    List.drop_left, List.take_of_length_le (Nat.le_of_eq List.length_set)]

theorem noCollision_set_pack (hlength : payload.length < 2 ^ (32 : Nat))
    (hother : checksum (payload.set i byte) ≠ checksum payload) :
    NoCollision payload ((pack payload).set (headerSize + i) byte) := by
  intro hsum
  rw [marked_set_pack hlength] at hsum
  exact absurd hsum hother

end Set

/-- An envelope that was packed and opens was short enough to be packed in full. -/
theorem length_lt_of_holds_pack {found : List UInt8} (hunique : NoCollision payload (pack payload))
    (h : Holds (pack payload) found) : payload.length < 2 ^ (32 : Nat) := by
  have hkeeps : KeepsChecksum (pack payload) (pack payload) := fun _ _ _ => rfl
  rw [← eq_of_keepsChecksum hunique hkeeps h]
  exact h.length_lt

end Envelope

/-! ### Scripts -/

/-- The payload under which a script is stored. -/
def Script.payload {S A : Type} (script : Script S A) : List UInt8 :=
  Payload.write (.ofTree script.catalog.predicates script.tree)

/-- The script without blocks. -/
def Tree.blockless : Tree :=
  node 0 (.rule .start) []

theorem Tree.wellLabelled_blockless (count : Nat) : Tree.blockless.WellLabelled count := by
  refine .rule 0 (fun _ hindex => ?_) (fun _ hchild => absurd hchild List.not_mem_nil)
  cases hindex

namespace Generator

open ScoreScript.Envelope

variable {S A : Type}

theorem holds_of_load {g : Generator S A} {bytes : List UInt8} {script : Script S A}
    (h : g.load bytes = .ok script) : ∃ payload, Holds bytes payload := by
  obtain ⟨t, hread, _⟩ := load_eq_ok_iff.1 h
  obtain ⟨payload, _, hunpack, _⟩ := readTree_eq_ok_iff.1 hread
  exact ⟨payload, unpack_eq_ok_iff.1 hunpack⟩

/-- Only the payload counts. -/
theorem load_congr {bytes bytes' payload : List UInt8} (h : Holds bytes payload)
    (h' : Holds bytes' payload) (g : Generator S A) : g.load bytes = g.load bytes' := by
  rw [load, load, readTree, readTree, unpack_eq_ok_iff.2 h, unpack_eq_ok_iff.2 h']

/-- **Corruption.**  Let a stored script load, and let a file keep its checksum, or its length and
its payload.  The file loads exactly when it is at least as long as the stored script and agrees
with it but for the version of the engine and the flags; and then it loads as the same script.  So
no truncation loads, and other versions of the engine, other flags and appended bytes change
nothing. -/
theorem load_damaged_iff {g : Generator S A} {script reloaded : Script S A} {bytes : List UInt8}
    (hreloads : g.load script.toBytes = .ok reloaded)
    (hstored : NoCollision script.payload script.toBytes)
    (hdamaged : NoCollision script.payload bytes)
    (hkeeps : KeepsChecksum script.toBytes bytes ∨ KeepsPayload script.toBytes bytes) :
    ((∃ loaded, g.load bytes = .ok loaded) ↔ SameContent script.toBytes bytes) ∧
      (∀ loaded, g.load bytes = .ok loaded → loaded = reloaded) ∧
      (∀ count < script.toBytes.length, ∀ loaded, g.load (script.toBytes.take count) ≠ .ok loaded) ∧
      ∀ info tail : List UInt8, info.length = 6 →
        g.load (relabelled script.toBytes info tail) = .ok reloaded := by
  have hpack : script.toBytes = pack script.payload := rfl
  obtain ⟨found, hfound⟩ := holds_of_load hreloads
  have hlength : script.payload.length < 2 ^ (32 : Nat) := length_lt_of_holds_pack hstored hfound
  have hsame : ∀ loaded, g.load bytes = .ok loaded → SameContent script.toBytes bytes := by
    intro loaded hloaded
    obtain ⟨payload, hpayload⟩ := holds_of_load hloaded
    have heq : payload = script.payload := by
      rcases hkeeps with hchecksum | hbody
      · exact eq_of_keepsChecksum hdamaged hchecksum hpayload
      · exact eq_of_keepsPayload hlength hbody hpayload
    exact (holds_iff_sameContent hlength).1 (heq ▸ hpayload)
  have hcongr : ∀ file, SameContent script.toBytes file → g.load file = .ok reloaded := by
    intro file hfile
    rw [← hreloads, hpack]
    exact load_congr ((holds_iff_sameContent hlength).2 hfile) (holds_pack hlength) g
  refine ⟨⟨?_, ?_⟩, ?_, ?_, ?_⟩
  · intro hloads
    obtain ⟨loaded, hloaded⟩ := hloads
    exact hsame loaded hloaded
  · intro hfile
    exact ⟨reloaded, hcongr bytes hfile⟩
  · intro loaded hloaded
    exact Except.ok.inj (hloaded.symm.trans (hcongr bytes (hsame loaded hloaded)))
  · intro count hcount loaded hloaded
    obtain ⟨payload, hpayload⟩ := holds_of_load hloaded
    exact not_holds_take hlength hcount payload hpayload
  · intro info tail hinfo
    have hlong : 12 ≤ script.toBytes.length := by
      rw [hpack, length_pack]
      exact Nat.le_add_right_of_le (by decide)
    exact hcongr _ (sameContent_relabelled hlong hinfo tail)

/-- The stored payload of an accepted script that fits into the budget can be packed in full. -/
theorem Accepts.length_payload_lt {g : Generator S A} {script : Script S A} (h : g.Accepts script)
    (hcost : (Payload.ofTree g.catalog.predicates script.tree).cost ≤ Payload.budget) :
    script.payload.length < 2 ^ (32 : Nat) := by
  rw [Script.payload, h.catalog_eq]
  exact Payload.length_write_lt (Blake3.hash_length _) hcost

/-- The script without blocks is stored in a payload of 37 bytes, of which the last one says that the
root has no children.  With another last byte the payload has another checksum. -/
theorem load_blockless :
    ∃ g script, make Catalog.small .default = .ok g ∧ g.load script.toBytes = .ok script ∧
      script.payload.length = 37 ∧ script.payload[36]? = some 0 ∧
      checksum (script.payload.set 36 1) ≠ checksum script.payload := by
  obtain ⟨g, script, hg, hscript, htest⟩ :=
    exists_script Catalog.small .blockless (fun script => script.payload.length == 37 &&
      script.payload[36]? == some 0 &&
      checksum (script.payload.set 36 1) != checksum script.payload) (by decide +kernel)
  rw [Bool.and_eq_true, Bool.and_eq_true, beq_iff_eq, beq_iff_eq, bne_iff_ne] at htest
  obtain ⟨⟨hlength, hlast⟩, hchecksum⟩ := htest
  have htree := tree_eq_of_compileTree hscript
  have hload : g.load script.toBytes = .ok script := by
    refine Accepts.load_eq (.compiled hscript) ?_ ?_ ?_
    · rw [htree]
      exact Tree.wellLabelled_blockless _
    · rw [htree]
      rfl
    · rw [htree, (make_eq_ok hg).catalog_eq]
      decide +kernel
  exact ⟨g, script, hg, hload, hlength, hlast, hchecksum⟩

/-- The script of the small words is relabelled and loads as before.  The script without blocks does
not load once its root is said to have a child and the checksum is kept. -/
theorem load_damaged_iff_small :
    (∃ g script, make Catalog.small .default = .ok g ∧ g.load script.toBytes = .ok script ∧
      ∃ bytes, bytes = relabelled script.toBytes [2, 0, 1, 0, 0, 0] [7] ∧
        NoCollision script.payload script.toBytes ∧ NoCollision script.payload bytes ∧
        KeepsChecksum script.toBytes bytes ∧ SameContent script.toBytes bytes ∧
        g.load bytes = .ok script) ∧
    ∃ g script, make Catalog.small .default = .ok g ∧ g.load script.toBytes = .ok script ∧
      ∃ bytes, bytes = script.toBytes.set (headerSize + 36) 1 ∧ bytes ≠ script.toBytes ∧
        NoCollision script.payload script.toBytes ∧ NoCollision script.payload bytes ∧
        KeepsChecksum script.toBytes bytes ∧ ¬ SameContent script.toBytes bytes ∧
        (∀ loaded, g.load bytes ≠ .ok loaded) ∧
        ∀ count < script.toBytes.length, ∀ loaded, g.load (script.toBytes.take count) ≠ .ok loaded := by
  constructor
  · obtain ⟨g, script, rest, hg, hrun, hcheap, hload⟩ := reload_small
    have hlength : script.payload.length < 2 ^ (32 : Nat) :=
      (Accepts.generated hrun).length_payload_lt ((make_eq_ok hg).catalog_eq ▸ hcheap)
    have hlong : 12 ≤ script.toBytes.length := by
      rw [Script.toBytes, length_pack]
      exact Nat.le_add_right_of_le (by decide)
    have hsame : SameContent script.toBytes (relabelled script.toBytes [2, 0, 1, 0, 0, 0] [7]) :=
      sameContent_relabelled hlong rfl [7]
    have hstored : NoCollision script.payload script.toBytes := noCollision_pack hlength
    have hdamaged :
        NoCollision script.payload (relabelled script.toBytes [2, 0, 1, 0, 0, 0] [7]) :=
      fun _ => ((holds_iff_sameContent hlength).2 hsame).marked_eq
    have hkeeps := hsame.keepsChecksum
    obtain ⟨_, _, _, hrelabelled⟩ := load_damaged_iff hload hstored hdamaged (.inl hkeeps)
    exact ⟨g, script, hg, hload, _, rfl, hstored, hdamaged, hkeeps, hsame, hrelabelled _ _ rfl⟩
  · obtain ⟨g, script, hg, hload, hsize, hlast, hchecksum⟩ := load_blockless
    have hlength : script.payload.length < 2 ^ (32 : Nat) := by
      rw [hsize]
      decide
    have hstored : NoCollision script.payload script.toBytes := noCollision_pack hlength
    have hdamaged : NoCollision script.payload (script.toBytes.set (headerSize + 36) 1) :=
      noCollision_set_pack hlength hchecksum
    have hkeeps : KeepsChecksum script.toBytes (script.toBytes.set (headerSize + 36) 1) :=
      keepsChecksum_set (Nat.le_add_right _ _)
    have hbyte : script.toBytes[headerSize + 36]? = some 0 := by
      rw [Script.toBytes, pack, ← header_length,
        List.getElem?_append_right (Nat.le_add_right _ _), Nat.add_sub_cancel_left]
      exact hlast
    have hother : ¬ SameContent script.toBytes (script.toBytes.set (headerSize + 36) 1) := by
      refine not_sameContent_set (Nat.le_add_right _ _) (List.getElem?_eq_some_iff.1 hbyte).1 ?_
      rw [hbyte]
      decide
    have hne : script.toBytes.set (headerSize + 36) 1 ≠ script.toBytes := by
      intro heq
      exact hother (heq.symm ▸ ⟨Nat.le_refl _, fun _ _ _ => rfl, fun _ _ _ => rfl⟩)
    obtain ⟨hloads, _, htruncated, _⟩ := load_damaged_iff hload hstored hdamaged (.inl hkeeps)
    exact ⟨g, script, hg, hload, _, rfl, hne, hstored, hdamaged, hkeeps, hother,
      fun loaded hloaded => hother (hloads.1 ⟨loaded, hloaded⟩), htruncated⟩

end Generator

end ScoreScript
