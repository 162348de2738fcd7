import ScoreScript.Cache.Envelope
import ScoreScript.Generator

/-!
# Storing scripts

A script is stored as its tree with a digest of its catalog, and loaded by compiling the tree again.

* `Script.toBytes` — the stored form of a script;
* `Generator.readTree` — the tree of a stored script, or the first thing that is wrong: envelope,
  payload, catalog, number of nodes, listing;
* `Generator.load` — the script of that tree.
-/

namespace ScoreScript

/-- Why a stored script does not load. -/
inductive LoadError where
  | envelope (error : EnvelopeError)
  | undecodable
  | catalogMismatch
  | nodeCount (said found : Nat)
  | listing (fault : ListingFault)
  | limit (error : LimitError)
  | refused (error : GenerateError)

/-- The wording of an error.  An undecodable payload has none of its own. -/
def LoadError.message : LoadError → String
  | envelope .badMagic => "not a battlescript binary: invalid magic bytes"
  | envelope (.incompatibleVersion found) =>
    s!"incompatible format version: blob is v{found}, engine supports v{Envelope.version}"
  | envelope .checksumMismatch => "integrity check failed: BLAKE3 checksum mismatch"
  | envelope (.lengthMismatch expected actual) =>
    s!"payload length mismatch: expected {expected} bytes, got {actual}"
  | undecodable => "undecodable payload"
  | catalogMismatch => "script was generated for a different predicate catalog"
  | nodeCount said found =>
    s!"validation failed: metadata says {said} nodes but payload has {found}"
  | listing fault => "validation failed: " ++ fault.message
  | limit error => error.message
  | refused error => error.message

variable {S A : Type}

/-- The stored form of a script. -/
def Script.toBytes (script : Script S A) : List UInt8 :=
  Envelope.pack (Payload.write (.ofTree script.catalog.predicates script.tree))

/-- The tree of a payload over a catalog, within limits. -/
def Payload.toTree (ps : List Predicate) (limits : Limits) (p : Payload) : Except LoadError Tree :=
  if p.digest ≠ catalogDigest ps then .error .catalogMismatch
  else if p.listing.length ≠ p.nodes then .error (.nodeCount p.nodes p.listing.length)
  else
    match p.listing.toTree ps.length limits with
    | .ok t => .ok t
    | .error (.fault fault) => .error (.listing fault)
    | .error (.limit error) => .error (.limit error)

theorem Payload.toTree_eq_ok_iff {ps : List Predicate} {limits : Limits} {p : Payload} {t : Tree} :
    p.toTree ps limits = .ok t ↔
      p.digest = catalogDigest ps ∧ p.listing.length = p.nodes ∧
        p.listing.toTree ps.length limits = .ok t := by
  unfold toTree
  by_cases hdigest : p.digest = catalogDigest ps
  · by_cases hcount : p.listing.length = p.nodes
    · rw [if_neg (not_not_intro hdigest), if_neg (not_not_intro hcount)]
      split
      · rename_i t' ht'
        simp [hdigest, hcount, ht']
      · rename_i fault hfault
        simp [hfault]
      · rename_i error herror
        simp [herror]
    · rw [if_neg (not_not_intro hdigest), if_pos hcount]
      simp [hcount]
  · rw [if_pos hdigest]
    simp [hdigest]

namespace Generator

/-- The tree of a stored script. -/
def readTree (g : Generator S A) (bytes : List UInt8) : Except LoadError Tree :=
  match Envelope.unpack bytes with
  | .error error => .error (.envelope error)
  | .ok payload =>
    match Payload.read.run Payload.budget payload with
    | none => .error .undecodable
    | some p => p.toTree g.catalog.predicates g.config.limits

/-- The script of stored bytes. -/
def load (g : Generator S A) (bytes : List UInt8) : Except LoadError (Script S A) :=
  match g.readTree bytes with
  | .error error => .error error
  | .ok t => (g.compileTree t).mapError .refused

theorem readTree_eq_ok_iff {g : Generator S A} {bytes : List UInt8} {t : Tree} :
    g.readTree bytes = .ok t ↔
      ∃ payload p, Envelope.unpack bytes = .ok payload ∧
        Payload.read.run Payload.budget payload = some p ∧
          p.toTree g.catalog.predicates g.config.limits = .ok t := by
  unfold readTree
  cases hunpack : Envelope.unpack bytes with
  | error error => simp
  | ok payload =>
    simp only [Except.ok.injEq, exists_and_left, exists_eq_left']
    cases hread : Payload.read.run Payload.budget payload with
    | none => simp
    | some p => simp only [Option.some.injEq, exists_eq_left']

theorem load_eq_ok_iff {g : Generator S A} {bytes : List UInt8} {script : Script S A} :
    g.load bytes = .ok script ↔ ∃ t, g.readTree bytes = .ok t ∧ g.compileTree t = .ok script := by
  unfold load
  cases ht : g.readTree bytes with
  | error error => simp
  | ok t =>
    simp only [Except.ok.injEq, exists_eq_left']
    cases g.compileTree t with
    | error error => constructor <;> intro h <;> cases h
    | ok s => constructor <;> intro h <;> exact congrArg _ (Except.ok.inj h)

end Generator

end ScoreScript
