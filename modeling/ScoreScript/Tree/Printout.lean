import ScoreScript.Tree.Basic

/-!
# Printouts of syntax trees

A printout shows a tree with one line for each node, in preorder.  A line holds a column for every
proper ancestor but the root, a connector, the label, and a mark when the node is among those given.

* `Glyphs` — the drawing of columns and connectors, in two styles;
* `Tree.printout` — the whole text;
* `Tree.lines_length` — one line for each node.
-/

namespace ScoreScript

/-- How columns and connectors are drawn: `branch` and `last` before a label, `pipe` and `blank` in
the column of an ancestor. -/
structure Glyphs where
  branch : String
  pipe : String
  last : String
  blank : String

/-- The styles of a printout. -/
inductive PrintStyle where
  | continuous | ascii
  deriving DecidableEq

/-- The drawing of a style. -/
def PrintStyle.glyphs : PrintStyle → Glyphs
  | continuous => ⟨"├── ", "│   ", "└── ", "    "⟩
  | ascii => ⟨"|-- ", "|   ", "+-- ", "    "⟩

namespace Tree

/-- The mark after the label of a node that is among those given. -/
def mark (marked : List NodeId) (id : NodeId) : String :=
  if id ∈ marked then " (X)" else ""

/-- The connector of a child. -/
def connector (g : Glyphs) (isLast : Bool) : String :=
  if isLast then g.last else g.branch

/-- The column of a child in the lines below it. -/
def column (g : Glyphs) (isLast : Bool) : String :=
  if isLast then g.blank else g.pipe

mutual

/-- The lines of a tree: `lead` stands before the label, `margin` before the lines of the
children. -/
def lines (g : Glyphs) (marked : List NodeId) (lead margin : String) : Tree → List String
  | node id label children =>
    (lead ++ label.text ++ mark marked id) :: childLines g marked margin children

/-- The lines of the children of one node. -/
def childLines (g : Glyphs) (marked : List NodeId) (margin : String) : List Tree → List String
  | [] => []
  | t :: rest =>
    lines g marked (margin ++ connector g rest.isEmpty) (margin ++ column g rest.isEmpty) t ++
      childLines g marked margin rest

end

/-- The printout of a tree in a style, with the given nodes marked. -/
def printout (style : PrintStyle) (marked : List NodeId) (t : Tree) : String :=
  String.join ((lines style.glyphs marked "" "" t).map (· ++ "\n"))

mutual

theorem lines_length (g : Glyphs) (marked : List NodeId) (lead margin : String) (t : Tree) :
    (lines g marked lead margin t).length = t.nodes := by
  cases t with
  | node id label children =>
    rw [lines, List.length_cons, childLines_length, nodes]
    omega

theorem childLines_length (g : Glyphs) (marked : List NodeId) (margin : String) (ts : List Tree) :
    (childLines g marked margin ts).length = nodesAll ts := by
  cases ts with
  | nil => rfl
  | cons t rest =>
    rw [childLines, List.length_append, lines_length, childLines_length, nodesAll]

end

end Tree

end ScoreScript
