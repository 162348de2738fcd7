import ScoreScript.Cache.Listing
import ScoreScript.Hash.Blake3

/-!
# Payloads

The payload of a stored script holds the number of nodes, a digest of the catalog that the script
was made for, and the listing of its tree.

* `catalogDigest` — the hash of the signatures of a catalog, one line each;
* `Payload.ofTree` — what is stored for a tree;
* `Payload.write`, `Payload.read` — its bytes.
-/

namespace ScoreScript

/-- The lines that stand for a catalog in its digest. -/
def catalogLines (ps : List Predicate) : List UInt8 :=
  ps.flatMap fun p => (p.signature ++ "\n").toByteArray.data.toList

/-- The digest of a catalog. -/
def catalogDigest (ps : List Predicate) : List UInt8 :=
  Blake3.hash (catalogLines ps)

/-- What is stored for a script. -/
structure Payload where
  nodes : Nat
  digest : List UInt8
  listing : Listing
  deriving DecidableEq

namespace Payload

/-- What is stored for a tree over a catalog. -/
def ofTree (ps : List Predicate) (t : Tree) : Payload :=
  ⟨t.size, catalogDigest ps, .ofTree t⟩

/-- The bytes of an entry. -/
def writeEntry (entry : ListingEntry) : List UInt8 :=
  entry.label.write ++ Field.writeNumber entry.arity

/-- An entry. -/
def readEntry : Reader ListingEntry := do
  let label ← StoredLabel.read
  let arity ← Field.readNumber 4
  return ⟨label, arity⟩

/-- The bytes of a payload. -/
def write (p : Payload) : List UInt8 :=
  Field.writeNumber p.nodes ++ p.digest ++ Field.writeNumber p.listing.length ++
    p.listing.flatMap writeEntry

/-- A payload.  Every byte of the digest is paid for on its own. -/
def read : Reader Payload := do
  let nodes ← Field.readNumber 8
  .claim 32
  let digest ← Reader.take 32
  let count ← Field.readNumber 8
  let listing ← readEntry.times count
  return ⟨nodes, digest, listing⟩

/-- The budget of a payload. -/
def budget : Nat := 2 ^ (24 : Nat)

end Payload

end ScoreScript
