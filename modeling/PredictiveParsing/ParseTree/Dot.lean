import PredictiveParsing.ParseTree

/-
Parse trees as graphs in the DOT language.

The nodes are numbered in preorder.  The line of a node comes first, then for
each child the lines of its subtree and the edge to it.  Leaves are boxes and
inner nodes ellipses; a quote in a label is escaped by a backslash.

* `ParseTree.dot` — the text of the graph;
* `ParseTree.dotLines` — the lines of a subtree, with the next free number.
-/
namespace PredictiveParsing

namespace ParseTree

/-- A label with its quotes escaped. -/
def dotLabel (s : String) : String :=
  .ofList (s.toList.flatMap fun c => if c = '"' then ['\\', '"'] else [c])

/-- The name of a node. -/
def dotName (number : Nat) : String :=
  "node" ++ toString number

/-- The line of a node. -/
def dotNode (number : Nat) (symbol : String) (isLeaf : Bool) : String :=
  "  " ++ dotName number ++ " [label=\"" ++ dotLabel symbol ++ "\", shape=" ++
    (if isLeaf then "box" else "ellipse") ++ "];"

/-- The line of an edge. -/
def dotEdge (parent child : Nat) : String :=
  "  " ++ dotName parent ++ " -> " ++ dotName child ++ ";"

mutual

/-- The lines of a subtree whose root has a given number, and the number after
its last. -/
def dotLines (number : Nat) : ParseTree → List String × Nat
  | node s cs =>
    let below := dotForest number (number + 1) cs
    (dotNode number s cs.isEmpty :: below.1, below.2)

/-- The lines of the children of a node, numbered from `next` on, each child
followed by the edge to it. -/
def dotForest (parent next : Nat) : List ParseTree → List String × Nat
  | [] => ([], next)
  | c :: cs =>
    let child := dotLines next c
    let others := dotForest parent child.2 cs
    (child.1 ++ dotEdge parent next :: others.1, others.2)

end

/-- The title of a graph that is given none. -/
def defaultTitle : String := "Parse Tree"

/-- The text of the graph. -/
def dot (title : String) (t : ParseTree) : String :=
  Text.join "\n" (("digraph \"" ++ title ++ "\" \x7b") :: (t.dotLines 0).1 ++ ["\x7d"])

end ParseTree

end PredictiveParsing
