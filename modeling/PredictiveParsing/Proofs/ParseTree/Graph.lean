import PredictiveParsing.ParseTree.Dot

/-
The graph of a parse tree.

A graph is a list of nodes and edges, as they are written line by line.  That of
a tree has the subtrees for nodes, numbered in preorder, and an edge to each
child behind everything that belongs to the child.

* `ParseTree.subtrees` — the subtrees in preorder;
* `GraphLine`, `ParseTree.graphLines` — the graph of a tree, line by line;
* `dotLines_eq` — these are the lines of its text;
* `childNumbers`, `zip_childNumbers_subset` — the numbers of the children of a
  node;
* `nodes_graphLines`, `edges_graphLines` — the nodes and the edges;
* `Describes`, `describes_graphLines` — what the lines of a graph tell of a tree;
* `assemble`, `assemble_graphLines` — the tree is put together again.

Design notes:

* Nodes are numbered without a counter: the number of a child is that of the one
  before it plus the number of nodes of that one.
-/
namespace PredictiveParsing

/-- A line of a graph. -/
inductive GraphLine where
  | node (number : Nat) (label : String) (isLeaf : Bool)
  | edge (parent child : Nat)
  deriving DecidableEq, Repr

namespace GraphLine

/-- The line as it is written. -/
def text : GraphLine → String
  | node number label isLeaf => ParseTree.dotNode number label isLeaf
  | edge parent child => ParseTree.dotEdge parent child

/-- The number, the label and the shape of a node. -/
def node? : GraphLine → Option (Nat × String × Bool)
  | node number label isLeaf => some (number, label, isLeaf)
  | edge _ _ => none

/-- The two ends of an edge. -/
def edge? : GraphLine → Option (Nat × Nat)
  | node _ _ _ => none
  | edge parent child => some (parent, child)

end GraphLine

namespace ParseTree

/-! ### Subtrees -/

mutual

/-- All subtrees, the tree first and then those of its children in order. -/
def subtrees : ParseTree → List ParseTree
  | node s cs => node s cs :: forestSubtrees cs

/-- The subtrees of a list of trees. -/
def forestSubtrees : List ParseTree → List ParseTree
  | [] => []
  | c :: cs => subtrees c ++ forestSubtrees cs

end

/-! ### The graph -/

mutual

/-- The lines of a tree whose root has a given number. -/
def graphLines (number : Nat) : ParseTree → List GraphLine
  | node s cs => .node number s cs.isEmpty :: forestLines number (number + 1) cs

/-- The lines of the children of a node, the first of which has the number
`next`. -/
def forestLines (parent next : Nat) : List ParseTree → List GraphLine
  | [] => []
  | c :: cs =>
    graphLines next c ++ .edge parent next :: forestLines parent (next + c.subtrees.length) cs

end

/-- The numbers of some trees, the first of which has the number `next`. -/
def childNumbers (next : Nat) : List ParseTree → List Nat
  | [] => []
  | c :: cs => next :: childNumbers (next + c.subtrees.length) cs

theorem dotForest_eq {cs : List ParseTree}
    (h : ∀ c ∈ cs, ∀ number, dotLines number c =
      ((graphLines number c).map GraphLine.text, number + c.subtrees.length)) (parent next : Nat) :
    dotForest parent next cs =
      ((forestLines parent next cs).map GraphLine.text, next + (forestSubtrees cs).length) := by
  induction cs generalizing next with
  | nil => rfl
  | cons c cs ih =>
    rw [List.forall_mem_cons] at h
    rw [dotForest, h.1 next, ih h.2, forestLines, forestSubtrees]
    simp only [List.map_append, List.map_cons, List.length_append, Nat.add_assoc]
    rfl

/-- **The text of a tree consists of the lines of its graph.** -/
theorem dotLines_eq (number : Nat) (t : ParseTree) : dotLines number t =
    ((graphLines number t).map GraphLine.text, number + t.subtrees.length) := by
  induction t using induction_children generalizing number with
  | h s cs ih =>
    rw [dotLines, dotForest_eq ih, graphLines, subtrees]
    simp only [List.map_cons, List.length_cons]
    refine Prod.ext rfl ?_
    show number + 1 + _ = number + (_ + 1)
    omega

/-! ### Nodes -/

theorem nodes_forestLines {cs : List ParseTree}
    (h : ∀ c ∈ cs, ∀ number, (graphLines number c).filterMap GraphLine.node? =
      (c.subtrees.zipIdx number).map fun u => (u.2, u.1.symbol, u.1.isLeaf)) (parent next : Nat) :
    (forestLines parent next cs).filterMap GraphLine.node? =
      ((forestSubtrees cs).zipIdx next).map fun u => (u.2, u.1.symbol, u.1.isLeaf) := by
  induction cs generalizing next with
  | nil => rfl
  | cons c cs ih =>
    rw [List.forall_mem_cons] at h
    rw [forestLines, forestSubtrees, List.filterMap_append, h.1 next, List.zipIdx_append,
      List.map_append, ← ih h.2]
    rfl

/-- **The nodes of a tree are its subtrees in preorder**, with their symbols as
labels, and those without children are leaves. -/
theorem nodes_graphLines (number : Nat) (t : ParseTree) :
    (graphLines number t).filterMap GraphLine.node? =
      (t.subtrees.zipIdx number).map fun u => (u.2, u.1.symbol, u.1.isLeaf) := by
  induction t using induction_children generalizing number with
  | h s cs ih =>
    rw [graphLines, subtrees, List.zipIdx_cons, List.map_cons, ← nodes_forestLines ih number]
    rfl

/-! ### Numbers of children -/

theorem mem_zipIdx_subtrees (number : Nat) (t : ParseTree) :
    (t, number) ∈ t.subtrees.zipIdx number := by
  cases t with
  | node s cs =>
    rw [subtrees, List.zipIdx_cons]
    exact List.mem_cons_self

theorem zip_childNumbers_forest (next : Nat) (cs : List ParseTree) :
    ∀ e ∈ cs.zip (childNumbers next cs), e ∈ (forestSubtrees cs).zipIdx next := by
  induction cs generalizing next with
  | nil => simp
  | cons c cs ih =>
    rw [childNumbers, List.zip_cons_cons, forestSubtrees, List.zipIdx_append, List.forall_mem_cons]
    exact ⟨List.mem_append_left _ (mem_zipIdx_subtrees next c),
      fun e he => List.mem_append_right _ (ih _ e he)⟩

/-- The subtrees of a child are subtrees, with the numbers they have there. -/
theorem exists_mem_of_mem_forest {next : Nat} {cs : List ParseTree} {e : ParseTree × Nat}
    (he : e ∈ (forestSubtrees cs).zipIdx next) :
    ∃ c ∈ cs, ∃ number, e ∈ c.subtrees.zipIdx number ∧
      ∀ e ∈ c.subtrees.zipIdx number, e ∈ (forestSubtrees cs).zipIdx next := by
  induction cs generalizing next with
  | nil => cases he
  | cons c cs ih =>
    rw [forestSubtrees, List.zipIdx_append] at he ⊢
    rcases List.mem_append.1 he with he | he
    · exact ⟨c, List.mem_cons_self, next, he, fun e he => List.mem_append_left _ he⟩
    · obtain ⟨d, hd, number, hin, hsub⟩ := ih he
      exact ⟨d, List.mem_cons_of_mem c hd, number, hin,
        fun e he => List.mem_append_right _ (hsub e he)⟩

/-- **The nodes with the numbers of the children are the children.** -/
theorem zip_childNumbers_subset {t : ParseTree} {number : Nat} {u : ParseTree × Nat}
    (hu : u ∈ t.subtrees.zipIdx number) :
    ∀ e ∈ u.1.children.zip (childNumbers (u.2 + 1) u.1.children), e ∈ t.subtrees.zipIdx number := by
  induction t using induction_children generalizing number with
  | h s cs ih =>
    rw [subtrees, List.zipIdx_cons] at hu ⊢
    intro e he
    refine List.mem_cons_of_mem _ ?_
    rcases List.mem_cons.1 hu with rfl | hu
    · exact zip_childNumbers_forest _ cs e he
    · obtain ⟨c, hc, m, hin, hsub⟩ := exists_mem_of_mem_forest hu
      exact hsub e (ih c hc hin e he)

/-! ### Edges -/

/-- The edges from a subtree with a number to its children. -/
def edgesFrom (u : ParseTree × Nat) : List (Nat × Nat) :=
  (childNumbers (u.2 + 1) u.1.children).map fun c => (u.2, c)

theorem filter_zipIdx_eq_nil {ts : List ParseTree} {next i : Nat} (h : i < next) :
    (ts.zipIdx next).filter (·.2 = i) = [] := by
  rw [List.filter_eq_nil_iff]
  intro u hu
  have := List.le_snd_of_mem_zipIdx hu
  simp only [decide_eq_true_eq]
  omega

/-- There is one subtree with a number. -/
theorem filter_zipIdx_eq_singleton {ts : List ParseTree} {next : Nat} {u : ParseTree × Nat}
    (h : u ∈ ts.zipIdx next) : (ts.zipIdx next).filter (·.2 = u.2) = [u] := by
  induction ts generalizing next with
  | nil => cases h
  | cons t ts ih =>
    rw [List.zipIdx_cons] at h ⊢
    rcases List.mem_cons.1 h with rfl | h
    · rw [List.filter_cons_of_pos (by simp), filter_zipIdx_eq_nil (Nat.lt_succ_self next)]
    · have := List.le_snd_of_mem_zipIdx h
      rw [List.filter_cons_of_neg (by simp only [decide_eq_true_eq]; omega), ih h]

theorem edges_forestLines {cs : List ParseTree}
    (h : ∀ c ∈ cs, ∀ number i, ((graphLines number c).filterMap GraphLine.edge?).filter (·.1 = i) =
      ((c.subtrees.zipIdx number).filter (·.2 = i)).flatMap edgesFrom)
    {parent next : Nat} (hlt : parent < next) (i : Nat) :
    ((forestLines parent next cs).filterMap GraphLine.edge?).filter (·.1 = i) =
      (if parent = i then (childNumbers next cs).map fun c => (parent, c) else []) ++
        (((forestSubtrees cs).zipIdx next).filter (·.2 = i)).flatMap edgesFrom := by
  induction cs generalizing next with
  | nil => simp [forestLines, childNumbers, forestSubtrees]
  | cons c cs ih =>
    rw [List.forall_mem_cons] at h
    have hcons : (forestLines parent next (c :: cs)).filterMap GraphLine.edge? =
        (graphLines next c).filterMap GraphLine.edge? ++
          (parent, next) :: (forestLines parent (next + c.subtrees.length) cs).filterMap
            GraphLine.edge? := by
      rw [forestLines, List.filterMap_append]
      rfl
    rw [hcons, List.filter_append, h.1, forestSubtrees, List.zipIdx_append, List.filter_append,
      List.flatMap_append, childNumbers]
    have hrest := ih h.2 (Nat.lt_add_right c.subtrees.length hlt)
    by_cases hi : parent = i
    · -- Nothing that belongs to the child begins at its parent.
      subst hi
      rw [filter_zipIdx_eq_nil hlt, List.filter_cons_of_pos (by simp), hrest, if_pos rfl,
        if_pos rfl]
      rfl
    · rw [List.filter_cons_of_neg (by simpa using hi), hrest, if_neg hi, if_neg hi]
      rfl

/-- **The edges from a number lead to the children of the subtree with it**, in
order. -/
theorem edges_graphLines (t : ParseTree) (number i : Nat) :
    ((graphLines number t).filterMap GraphLine.edge?).filter (·.1 = i) =
      ((t.subtrees.zipIdx number).filter (·.2 = i)).flatMap edgesFrom := by
  induction t using induction_children generalizing number i with
  | h s cs ih =>
    have hcons : (graphLines number (.node s cs)).filterMap GraphLine.edge? =
        (forestLines number (number + 1) cs).filterMap GraphLine.edge? := by
      rw [graphLines]
      rfl
    rw [hcons, edges_forestLines ih (Nat.lt_succ_self number), subtrees, List.zipIdx_cons]
    by_cases hi : number = i
    · subst hi
      rw [if_pos rfl, List.filter_cons_of_pos (by simp), List.flatMap_cons]
      rfl
    · rw [if_neg hi, List.filter_cons_of_neg (by simpa using hi)]
      rfl

theorem length_edges_forestLines {cs : List ParseTree}
    (h : ∀ c ∈ cs, ∀ number, ((graphLines number c).filterMap GraphLine.edge?).length + 1 =
      c.subtrees.length) (parent next : Nat) :
    ((forestLines parent next cs).filterMap GraphLine.edge?).length =
      (forestSubtrees cs).length := by
  induction cs generalizing next with
  | nil => rfl
  | cons c cs ih =>
    rw [List.forall_mem_cons] at h
    have hc := h.1 next
    have hcs := ih h.2 (next + c.subtrees.length)
    rw [forestLines, forestSubtrees, List.filterMap_append, List.length_append, List.length_append]
    show _ + (_ + 1) = _
    omega

/-- There is one edge less than there are nodes. -/
theorem length_edges_graphLines (number : Nat) (t : ParseTree) :
    ((graphLines number t).filterMap GraphLine.edge?).length + 1 = t.subtrees.length := by
  induction t using induction_children generalizing number with
  | h s cs ih =>
    rw [graphLines, subtrees, List.length_cons, ← length_edges_forestLines ih number (number + 1)]
    rfl

/-! ### What the lines of a graph tell -/

/-- The lines describe a tree: the nodes are the subtrees in preorder, numbered
from zero, each with its symbol and marked if it is a leaf; the edges from a node
lead to its children, in order; and there are no others. -/
structure Describes (lines : List GraphLine) (t : ParseTree) : Prop where
  nodes_eq : lines.filterMap GraphLine.node? =
    t.subtrees.zipIdx.map fun u => (u.2, u.1.symbol, u.1.isLeaf)
  edges_eq : ∀ u ∈ t.subtrees.zipIdx, (lines.filterMap GraphLine.edge?).filter (·.1 = u.2) =
    (childNumbers (u.2 + 1) u.1.children).map fun c => (u.2, c)
  children_mem : ∀ u ∈ t.subtrees.zipIdx,
    ∀ e ∈ u.1.children.zip (childNumbers (u.2 + 1) u.1.children), e ∈ t.subtrees.zipIdx
  length_edges : (lines.filterMap GraphLine.edge?).length + 1 = t.subtrees.length

theorem describes_graphLines (t : ParseTree) : Describes (graphLines 0 t) t := by
  refine ⟨nodes_graphLines 0 t, fun u hu => ?_, fun u hu => zip_childNumbers_subset hu,
    length_edges_graphLines 0 t⟩
  rw [edges_graphLines, filter_zipIdx_eq_singleton hu, List.flatMap_singleton]
  rfl

/-! ### Putting a tree together -/

/-- Puts a tree together: a node is a tree without children yet, and an edge
makes the latest tree the last child of the one before it. -/
def assemble : List (Nat × ParseTree) → List GraphLine → Option ParseTree
  | [(_, t)], [] => some t
  | stack, .node number label _ :: lines => assemble ((number, .node label []) :: stack) lines
  | (child, t) :: (parent, .node s cs) :: stack, .edge p c :: lines =>
    if p = parent ∧ c = child then assemble ((parent, .node s (cs ++ [t])) :: stack) lines
    else none
  | _, _ => none

theorem assemble_forestLines {cs : List ParseTree}
    (h : ∀ c ∈ cs, ∀ number stack lines, assemble stack (graphLines number c ++ lines) =
      assemble ((number, c) :: stack) lines)
    (parent next : Nat) (s : String) (done : List ParseTree) (stack : List (Nat × ParseTree))
    (lines : List GraphLine) :
    assemble ((parent, .node s done) :: stack) (forestLines parent next cs ++ lines) =
      assemble ((parent, .node s (done ++ cs)) :: stack) lines := by
  induction cs generalizing next done with
  | nil => rw [forestLines, List.nil_append, List.append_nil]
  | cons c cs ih =>
    rw [List.forall_mem_cons] at h
    rw [forestLines, List.append_assoc, h.1, List.cons_append, assemble, if_pos ⟨rfl, rfl⟩, ih h.2,
      List.append_assoc]
    rfl

theorem assemble_append (number : Nat) (t : ParseTree) (stack : List (Nat × ParseTree))
    (lines : List GraphLine) : assemble stack (graphLines number t ++ lines) =
      assemble ((number, t) :: stack) lines := by
  induction t using induction_children generalizing number stack lines with
  | h s cs ih =>
    have hnode : assemble stack (graphLines number (.node s cs) ++ lines) =
        assemble ((number, .node s []) :: stack)
          (forestLines number (number + 1) cs ++ lines) := by
      rw [graphLines, List.cons_append, assemble]
    rw [hnode, assemble_forestLines ih, List.nil_append]

/-- **The graph of a tree tells the tree.** -/
theorem assemble_graphLines (number : Nat) (t : ParseTree) :
    assemble [] (graphLines number t) = some t := by
  have h := assemble_append number t [] []
  rw [List.append_nil] at h
  rw [h, assemble]

end ParseTree

end PredictiveParsing
