import PredictiveParsing.Simulation.Derivation

/-
Parse trees.

* `ParseTree` — symbols with their children;
* `ParseTree.leaves` — the symbols at the leaves, from left to right;
* `ParseTree.graft` — a tree in which a node gets other children;
* `Draft` — a tree with the places where it may grow;
* `Draft.apply` — the draft after one more production;
* `Simulation.parseTree` — the tree that a run has built so far.

Design notes:

* The pending places are a list that is kept beside the tree: the place of the
  production is taken out, and its children that are non-terminals are put in
  instead.  That these are the unexpanded leaves from left to right is a
  theorem, see `Proofs/ParseTree/Pending`.
-/
namespace PredictiveParsing

/-- A symbol with its children; without children it is a leaf. -/
inductive ParseTree where
  | node (symbol : String) (children : List ParseTree)
  deriving Repr, Inhabited

namespace ParseTree

def symbol : ParseTree → String
  | node s _ => s

def children : ParseTree → List ParseTree
  | node _ cs => cs

def isLeaf (t : ParseTree) : Bool :=
  t.children.isEmpty

/-- What holds of a tree if it holds of its children holds of every tree. -/
theorem induction_children {P : ParseTree → Prop}
    (h : ∀ s cs, (∀ c ∈ cs, P c) → P (node s cs)) : ∀ t, P t
  | node s cs => h s cs fun c _ => induction_children h c

mutual

/-- The symbols at the leaves, from left to right. -/
def leaves : ParseTree → List String
  | node s [] => [s]
  | node _ (c :: cs) => leaves c ++ forestLeaves cs

/-- The symbols at the leaves of a list of trees. -/
def forestLeaves : List ParseTree → List String
  | [] => []
  | c :: cs => leaves c ++ forestLeaves cs

end

/-- The tree with the children of one node replaced, the one to which a way
leads. -/
def graft (children : List ParseTree) : List Nat → ParseTree → ParseTree
  | [], node s _ => node s children
  | i :: way, node s cs => node s (cs.modify i (graft children way))

/-- A node, told by its way: the numbers of the children on the way from the
root. -/
structure Place where
  symbol : String
  way : List Nat
  deriving Repr, DecidableEq

/-- The children that a node gets for some names. -/
def childPlaces (way : List Nat) (names : List String) : List Place :=
  names.zipIdx.map fun (n, i) => ⟨n, way ++ [i]⟩

end ParseTree

/-- A tree as far as it has grown, with the places where it may grow further,
the leftmost first. -/
structure Draft where
  tree : ParseTree
  pending : List ParseTree.Place
  deriving Repr, Inhabited

namespace Draft

/-- A root alone, which may grow whatever its symbol is. -/
def root (symbol : String) : Draft where
  tree := .node symbol []
  pending := [⟨symbol, []⟩]

/-- The draft after a production was applied at the first pending place of its
antecedent; without one it stays as it is. -/
def apply (g : Grammar) (d : Draft) (p : Production) : Draft :=
  match d.pending.findFinIdx? (·.symbol = p.antecedent) with
  | none => d
  | some i =>
    let place := d.pending[i]
    let rest := d.pending.eraseIdx i
    let expandable :=
      (ParseTree.childPlaces place.way p.names).filter fun c => g.isNonTerminal c.symbol
    { tree := d.tree.graft (p.names.map (.node · [])) place.way
      pending := rest.take i ++ expandable ++ rest.drop i }

end Draft

namespace Simulation

/-- The draft after the productions applied so far. -/
def draft (s : Simulation) : Draft :=
  s.applied.foldl (Draft.apply s.grammar) (.root s.startName)

/-- The tree of the productions applied so far. -/
def parseTree (s : Simulation) : ParseTree :=
  s.draft.tree

end Simulation

end PredictiveParsing
