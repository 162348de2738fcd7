import ScoreScript.Cache.Label
import ScoreScript.Tree.Traversal

/-!
# Listings

A tree is stored as the list of its labels in preorder, each with the number of its children.  Going
through a listing, the nodes whose children are still to come are kept open, the innermost first.

* `Listing.ofTree` — the listing of a tree;
* `Listing.toTree` — the tree of a listing, its nodes numbered in order, or what is wrong with it;
* `Frame.place` — a finished tree joins its parent, which may finish that one too;
* `Listing.ofTree_length` — a listing has one entry for each node.
-/

namespace ScoreScript

/-- A stored label and a number of children. -/
structure ListingEntry where
  label : StoredLabel
  arity : Nat
  deriving DecidableEq

/-- Labels in preorder with their numbers of children. -/
abbrev Listing := List ListingEntry

/-- Why a listing is the listing of no tree. -/
inductive ListingFault where
  | label (fault : LabelFault)
  | terminalWithChildren (text : String)
  | trailingNodes (count : Nat)
  | unfinished
  deriving DecidableEq

/-- The wording of a fault. -/
def ListingFault.message : ListingFault → String
  | label fault => fault.message
  | terminalWithChildren text => s!"terminal '{text}' has children"
  | trailingNodes count => s!"{count} trailing nodes after the root closed"
  | unfinished => "tree ends before every node closed"

/-- A listing that cannot be read as a tree, or whose tree is beyond the limits. -/
inductive ListingError where
  | fault (fault : ListingFault)
  | limit (error : LimitError)
  deriving DecidableEq

/-! ### From trees to listings -/

/-- The entry of a node.  The count of children is kept in 32 bits. -/
def ListingEntry.ofTree (t : Tree) : ListingEntry :=
  ⟨.ofSymbol t.label, t.children.length % 2 ^ (32 : Nat)⟩

/-- The listing of a tree. -/
def Listing.ofTree (t : Tree) : Listing :=
  t.preorder.map .ofTree

theorem Listing.ofTree_length (t : Tree) : (Listing.ofTree t).length = t.nodes := by
  rw [Listing.ofTree, List.length_map, Tree.preorder_length]

/-! ### From listings to trees -/

/-- A node that waits for children: those found, the last one first, and how many are to come after
the next one. -/
structure Frame where
  id : NodeId
  label : Symbol
  found : List Tree
  waiting : Nat

namespace Frame

/-- The node once its last child is there. -/
def close (f : Frame) (last : Tree) : Tree :=
  .node f.id f.label (last :: f.found).reverse

/-- A finished tree takes its place below the innermost open node.  If it was the last child there,
the finished node takes its own place in turn; without an open node it is the root. -/
def place (t : Tree) : List Frame → List Frame × Option Tree
  | [] => ([], some t)
  | f :: rest =>
    match f.waiting with
    | 0 => place (f.close t) rest
    | waiting + 1 => ({ f with found := t :: f.found, waiting := waiting } :: rest, none)

end Frame

namespace Listing

/-- Goes through the entries from a position on, with the given nodes open.  `root` is the finished
tree, after which no entry may follow. -/
def build (count : Nat) (limits : Limits) (index : Nat) (opened : List Frame) (root : Option Tree) :
    Listing → Except ListingError Tree
  | [] =>
    match root with
    | some t => .ok t
    | none => .error (.fault .unfinished)
  | entry :: rest =>
    if root.isSome then .error (.fault (.trailingNodes (rest.length + 1)))
    else if limits.depth ≤ opened.length then .error (.limit (.tooDeep limits.depth))
    else
      match entry.label.resolve count with
      | .error fault => .error (.fault (.label fault))
      | .ok label =>
        match entry.arity with
        | 0 =>
          let (opened, root) := Frame.place (.node (UInt32.ofNat index) label []) opened
          build count limits (index + 1) opened root rest
        | waiting + 1 =>
          if label.terminal?.isSome then .error (.fault (.terminalWithChildren label.text))
          else
            build count limits (index + 1) (⟨UInt32.ofNat index, label, [], waiting⟩ :: opened) none
              rest

/-- The tree of a listing within limits, over a catalog of `count` predicates. -/
def toTree (count : Nat) (limits : Limits) (listing : Listing) : Except ListingError Tree :=
  if limits.nodes < listing.length then .error (.limit (.tooManyNodes limits.nodes))
  else build count limits 0 [] none listing

end Listing

end ScoreScript
