import PredictiveParsing.ParseTree

/-
The pending places of a draft are its unexpanded leaves.

A draft keeps its pending places in a list of their own.  A production takes one
place out and puts some of its children in at the same position, so nothing is
ever sorted or searched for in the tree.  Still the list is always that of the
leaves that may be expanded, from left to right.

* `ParseTree.leafPlaces` — the leaves with their places;
* `ParseTree.leafPlaces_graft` — a leaf that gets children makes room for them;
* `Draft.InOrder` — the pending places are the unexpanded leaves in order;
* `Draft.InOrder.apply`, `Draft.InOrder.foldl_apply` — productions keep it;
* `Simulation.inOrder_draft` — so it is so for the draft of any run;
* `Draft.InOrder.apply_cases` — what a production does to the leaves;
* `ParseTree.Licensed` — inner nodes with their children are productions.

Design notes:

* The root is pending whatever its symbol is, and the only place without a way.
-/
namespace PredictiveParsing

namespace ParseTree

/-! ### Leaves and their places -/

mutual

/-- The leaves of a subtree to which a way leads, from left to right. -/
def leafPlaces (way : List Nat) : ParseTree → List Place
  | node s [] => [⟨s, way⟩]
  | node _ (c :: cs) => leafPlaces (way ++ [0]) c ++ forestPlaces way 1 cs

/-- The leaves of some children of a node, the first of which has the number
`i`. -/
def forestPlaces (way : List Nat) (i : Nat) : List ParseTree → List Place
  | [] => []
  | c :: cs => leafPlaces (way ++ [i]) c ++ forestPlaces way (i + 1) cs

end

theorem leafPlaces_of_ne_nil (way : List Nat) (s : String) {cs : List ParseTree} (h : cs ≠ []) :
    leafPlaces way (node s cs) = forestPlaces way 0 cs := by
  cases cs with
  | nil => exact absurd rfl h
  | cons c cs => rw [leafPlaces, forestPlaces]

theorem forestLeaves_eq (cs : List ParseTree) : forestLeaves cs = cs.flatMap leaves := by
  induction cs with
  | nil => rfl
  | cons c cs ih => rw [forestLeaves, ih, List.flatMap_cons]

theorem leaves_of_ne_nil (s : String) {cs : List ParseTree} (h : cs ≠ []) :
    (node s cs).leaves = cs.flatMap leaves := by
  cases cs with
  | nil => exact absurd rfl h
  | cons c cs => rw [leaves, forestLeaves_eq, List.flatMap_cons]

theorem map_symbol_forestPlaces {cs : List ParseTree}
    (h : ∀ c ∈ cs, ∀ way, (leafPlaces way c).map Place.symbol = c.leaves) (way : List Nat)
    (i : Nat) : (forestPlaces way i cs).map Place.symbol = cs.flatMap leaves := by
  induction cs generalizing i with
  | nil => rfl
  | cons c cs ih =>
    rw [forestPlaces, List.map_append, h c List.mem_cons_self,
      ih fun d hd => h d (List.mem_cons_of_mem c hd)]
    rfl

/-- The places of the leaves have the symbols of the leaves. -/
theorem map_symbol_leafPlaces (t : ParseTree) (way : List Nat) :
    (leafPlaces way t).map Place.symbol = t.leaves := by
  induction t using induction_children generalizing way with
  | h s cs ih =>
    by_cases hcs : cs = []
    · subst hcs
      rfl
    · rw [leafPlaces_of_ne_nil way s hcs, map_symbol_forestPlaces ih, leaves_of_ne_nil s hcs]

theorem map_symbol_childPlaces (way : List Nat) (names : List String) :
    (childPlaces way names).map Place.symbol = names := by
  rw [childPlaces, List.map_map]
  exact List.zipIdx_map_fst 0 names

theorem forestPlaces_map_leaf (way : List Nat) (names : List String) (i : Nat) :
    forestPlaces way i (names.map (node · [])) =
      (names.zipIdx i).map fun (n, j) => ⟨n, way ++ [j]⟩ := by
  induction names generalizing i with
  | nil => rfl
  | cons n names ih => rw [List.map_cons, forestPlaces, ih]; rfl

/-- The children that a production gives a node are leaves. -/
theorem leafPlaces_map_leaf (way : List Nat) (s : String) {names : List String}
    (h : names ≠ []) :
    leafPlaces way (node s (names.map (node · []))) = childPlaces way names := by
  rw [leafPlaces_of_ne_nil way s (by simpa using h), forestPlaces_map_leaf]
  rfl

/-! ### New children for a leaf -/

/-- The subtree to which a way leads. -/
def subtreeAt : List Nat → ParseTree → Option ParseTree
  | [], t => some t
  | i :: way, node _ cs => cs[i]?.bind (subtreeAt way)

section

variable {names : List String} {way : List Nat} {before behind : List Place} {q : Place}

/-- If the leaf `q` gets some names as children, these take its place among
the leaves. -/
def Splits (names : List String) (t : ParseTree) : Prop :=
  ∀ {way before q behind}, leafPlaces way t = before ++ q :: behind →
    ∃ rest, q.way = way ++ rest ∧ t.subtreeAt rest = some (node q.symbol []) ∧
      leafPlaces way (t.graft (names.map (node · [])) rest) =
        before ++ childPlaces q.way names ++ behind

theorem forestPlaces_modify {cs : List ParseTree} (hcs : ∀ c ∈ cs, Splits names c) {i : Nat}
    (h : forestPlaces way i cs = before ++ q :: behind) :
    ∃ j rest, q.way = way ++ (i + j) :: rest ∧
      cs[j]?.bind (subtreeAt rest) = some (node q.symbol []) ∧
      forestPlaces way i (cs.modify j (graft (names.map (node · [])) rest)) =
        before ++ childPlaces q.way names ++ behind := by
  induction cs generalizing i before with
  | nil => simp [forestPlaces] at h
  | cons c cs ih =>
    obtain ⟨hc, hcs⟩ := List.forall_mem_cons.1 hcs
    rw [forestPlaces, List.append_eq_append_iff] at h
    rcases h with ⟨front, rfl, h⟩ | ⟨mid, hfirst, h⟩
    · -- The leaf is one of a later child.
      obtain ⟨j, rest, hway, hleaf, he⟩ := ih hcs h
      refine ⟨j + 1, rest, by rw [hway, Nat.add_right_comm, Nat.add_assoc], hleaf, ?_⟩
      rw [List.modify_succ_cons, forestPlaces, he]
      simp only [List.append_assoc]
    · cases mid with
      | nil =>
        have hlater : forestPlaces way (i + 1) cs = [] ++ q :: behind := h.symm
        obtain ⟨j, rest, hway, hleaf, he⟩ := ih hcs hlater
        refine ⟨j + 1, rest, by rw [hway, Nat.add_right_comm, Nat.add_assoc], hleaf, ?_⟩
        rw [List.modify_succ_cons, forestPlaces, he, hfirst, List.append_nil]
        simp only [List.append_assoc, List.nil_append]
      | cons r mid =>
        -- The leaf is one of the first child.
        obtain ⟨rfl, rfl⟩ := List.cons.inj h
        obtain ⟨rest, hway, hleaf, he⟩ := hc hfirst
        refine ⟨0, rest, by rw [hway, List.append_assoc]; rfl, hleaf, ?_⟩
        rw [List.modify_zero_cons, forestPlaces, he]
        exact List.append_assoc _ mid _

/-- **A leaf that gets children makes room for them.** -/
theorem leafPlaces_graft (hnames : names ≠ []) (t : ParseTree) : Splits names t := by
  induction t using induction_children with
  | h s cs ih =>
    intro way before q behind h
    by_cases hcs : cs = []
    · subst hcs
      obtain ⟨rfl, h⟩ := List.append_eq_singleton_iff.1 h.symm |>.resolve_right (by simp)
      obtain ⟨rfl, rfl⟩ := List.cons.inj h
      exact ⟨[], by simp, rfl, by simp [graft, leafPlaces_map_leaf way s hnames]⟩
    · rw [leafPlaces_of_ne_nil way s hcs] at h
      obtain ⟨j, rest, hway, hleaf, he⟩ := forestPlaces_modify ih h
      refine ⟨j :: rest, by rw [hway, Nat.zero_add], hleaf, ?_⟩
      rw [graft, leafPlaces_of_ne_nil way s (by simpa using hcs), he]

end

/-! ### Licensed trees -/

@[simp] theorem symbol_graft (children : List ParseTree) (way : List Nat) (t : ParseTree) :
    (t.graft children way).symbol = t.symbol := by
  cases way <;> cases t <;> rfl

/-- Every inner node with its children is one of the productions. -/
inductive Licensed (ps : List Production) : ParseTree → Prop where
  | leaf (s : String) : Licensed ps (.node s [])
  | inner {p : Production} {cs : List ParseTree} (hp : p ∈ ps)
      (hs : cs.map ParseTree.symbol = p.names) (hcs : ∀ c ∈ cs, Licensed ps c) :
      Licensed ps (.node p.antecedent cs)

theorem Licensed.node_leaves {p : Production} {ps : List Production} (hp : p ∈ ps) :
    Licensed ps (node p.antecedent (p.names.map (node · []))) := by
  refine .inner hp ?_ fun c hc => ?_
  · rw [List.map_map]
    exact List.map_id _
  · obtain ⟨n, -, rfl⟩ := List.mem_map.1 hc
    exact .leaf n

/-- A leaf may be expanded by any production for its symbol. -/
theorem Licensed.graft {p : Production} {ps : List Production} {t : ParseTree} {way : List Nat}
    (h : Licensed ps t) (hp : p ∈ ps) (hleaf : t.subtreeAt way = some (node p.antecedent [])) :
    Licensed ps (t.graft (p.names.map (node · [])) way) := by
  induction way generalizing t with
  | nil =>
    obtain rfl := Option.some.inj hleaf
    exact .node_leaves hp
  | cons i way ih =>
    cases h with
    | leaf s => simp [subtreeAt] at hleaf
    | @inner r cs hr hs hcs =>
      obtain ⟨c, hc, hleaf⟩ := Option.bind_eq_some_iff.1 hleaf
      obtain ⟨hi, rfl⟩ := List.getElem?_eq_some_iff.1 hc
      obtain ⟨front, c, rest, rfl, rfl, he⟩ :=
        List.exists_of_modify (ParseTree.graft (p.names.map (node · [])) way) hi
      simp only [List.getElem_append_right (Nat.le_refl _), Nat.sub_self, List.getElem_cons_zero]
        at hleaf
      rw [ParseTree.graft, he]
      refine .inner hr ?_ fun d hd => ?_
      · simpa using hs
      · rcases List.mem_append.1 hd with hd | hd
        · exact hcs d (List.mem_append_left _ hd)
        rcases List.mem_cons.1 hd with rfl | hd
        · exact ih (hcs c (by simp)) hleaf
        · exact hcs d (by simp [hd])

end ParseTree

theorem Production.names_ne_nil (p : Production) : p.names ≠ [] := by
  simp [names, consequent]

namespace Draft

open ParseTree (Place childPlaces)

/-! ### The pending places -/

/-- A place that may be expanded: that of a non-terminal, or the root. -/
def isOpen (g : Grammar) (q : Place) : Bool :=
  g.isNonTerminal q.symbol || q.way.isEmpty

/-- The pending places are the leaves that may be expanded, from left to
right. -/
def InOrder (g : Grammar) (d : Draft) : Prop :=
  d.pending = (d.tree.leafPlaces []).filter (isOpen g)

variable {g : Grammar} {d : Draft} {p : Production} {q : Place} {before behind : List Place}

theorem inOrder_root (g : Grammar) (s : String) : (root s).InOrder g := by
  simp [InOrder, root, ParseTree.leafPlaces, isOpen]

/-- A child is no root, so only its symbol counts. -/
theorem filter_childPlaces (g : Grammar) (way : List Nat) (names : List String) :
    (childPlaces way names).filter (isOpen g) =
      (childPlaces way names).filter fun c => g.isNonTerminal c.symbol := by
  refine List.filter_congr fun c hc => ?_
  obtain ⟨⟨n, i⟩, -, rfl⟩ := List.mem_map.1 hc
  simp [isOpen]

theorem apply_of_forall_ne (h : ∀ r ∈ d.pending, r.symbol ≠ p.antecedent) : d.apply g p = d := by
  have hnone : d.pending.findFinIdx? (·.symbol = p.antecedent) = none := by simpa using h
  rw [apply, hnone]

theorem apply_of_pending (h : d.pending = before ++ q :: behind) (hq : q.symbol = p.antecedent)
    (hbefore : ∀ r ∈ before, r.symbol ≠ p.antecedent) :
    d.apply g p =
      { tree := d.tree.graft (p.names.map (.node · [])) q.way
        pending := before ++ (childPlaces q.way p.names).filter (isOpen g) ++ behind } := by
  obtain ⟨tree, pending⟩ := d
  subst h
  have hsome : (before ++ q :: behind).findFinIdx? (·.symbol = p.antecedent) =
      some ⟨before.length, by simp⟩ := by
    rw [List.findFinIdx?_eq_some_iff]
    refine ⟨by simpa using hq, fun j hj => ?_⟩
    have hj : j.val < before.length := hj
    simpa [List.getElem_append_left hj] using hbefore _ (List.getElem_mem hj)
  rw [apply, hsome, filter_childPlaces]
  simp [List.eraseIdx_append_of_length_le]

/-- The production expands the leaf `q`, the first open one of its antecedent:
its children stand between the leaves that were before and behind it. -/
structure Expands (g : Grammar) (p : Production) (d : Draft) (before : List Place) (q : Place)
    (behind : List Place) : Prop where
  places_eq : d.tree.leafPlaces [] = before ++ q :: behind
  symbol_eq : q.symbol = p.antecedent
  symbol_ne : ∀ r ∈ before, isOpen g r → r.symbol ≠ p.antecedent
  subtreeAt_eq : d.tree.subtreeAt q.way = some (.node p.antecedent [])
  tree_eq : (d.apply g p).tree = d.tree.graft (p.names.map (.node · [])) q.way
  leafPlaces_eq : (d.apply g p).tree.leafPlaces [] = before ++ childPlaces q.way p.names ++ behind
  pending_eq : (d.apply g p).pending =
    (before ++ childPlaces q.way p.names ++ behind).filter (isOpen g)

/-- What a production does to a draft in order: nothing, or it expands the
first open leaf of its antecedent. -/
theorem InOrder.apply_cases (h : d.InOrder g) (p : Production) :
    (∀ r ∈ d.tree.leafPlaces [], isOpen g r → r.symbol ≠ p.antecedent) ∧ d.apply g p = d ∨
      ∃ before q behind, Expands g p d before q behind := by
  by_cases hnone : ∀ r ∈ d.pending, r.symbol ≠ p.antecedent
  · refine .inl ⟨fun r hr ho => hnone r ?_, apply_of_forall_ne hnone⟩
    rw [h]
    exact List.mem_filter.2 ⟨hr, ho⟩
  · obtain ⟨q, hfind⟩ : ∃ q, d.pending.find? (·.symbol = p.antecedent) = some q := by
      rw [← Option.isSome_iff_exists, List.find?_isSome]
      simpa using hnone
    obtain ⟨hq, front, rest, hpending, hfront⟩ := List.find?_eq_some_iff_append.1 hfind
    have hq : q.symbol = p.antecedent := by simpa using hq
    have hfront : ∀ r ∈ front, r.symbol ≠ p.antecedent := by simpa using hfront
    -- The pending places before and behind it come from leaves before and behind it.
    obtain ⟨before, tail, hplaces, rfl, htail⟩ := List.filter_eq_append_iff.1 (h ▸ hpending)
    obtain ⟨closed, behind, rfl, hclosed, -, rfl⟩ := List.filter_eq_cons_iff.1 htail
    rw [← List.append_assoc] at hplaces
    obtain ⟨way, hway, hleaf, hgraft⟩ := ParseTree.leafPlaces_graft p.names_ne_nil d.tree hplaces
    obtain rfl : q.way = way := hway
    have happly := apply_of_pending (g := g) hpending hq hfront
    refine .inr ⟨before ++ closed, q, behind, hplaces, hq, fun r hr ho => ?_, hq ▸ hleaf,
      by rw [happly], by rw [happly]; exact hgraft, ?_⟩
    · rcases List.mem_append.1 hr with hr | hr
      · exact hfront r (List.mem_filter.2 ⟨hr, ho⟩)
      · exact absurd ho (hclosed r hr)
    · rw [happly]
      simp only [List.filter_append, List.filter_eq_nil_iff.2 hclosed, List.append_nil]

/-- **A production keeps the pending places the unexpanded leaves, from left to
right.** -/
theorem InOrder.apply (h : d.InOrder g) (p : Production) : (d.apply g p).InOrder g := by
  rcases h.apply_cases p with ⟨-, he⟩ | ⟨before, q, behind, hx⟩
  · rwa [he]
  · rw [InOrder, hx.pending_eq, hx.leafPlaces_eq]

/-- So do any productions, one after the other. -/
theorem InOrder.foldl_apply (h : d.InOrder g) (ps : List Production) :
    (ps.foldl (Draft.apply g) d).InOrder g := by
  induction ps generalizing d with
  | nil => exact h
  | cons p ps ih => exact ih (h.apply p)

/-- The productions that are applied license the tree. -/
theorem InOrder.licensed_apply {ps : List Production} (h : d.InOrder g) (hp : p ∈ ps)
    (ht : d.tree.Licensed ps) : (d.apply g p).tree.Licensed ps := by
  rcases h.apply_cases p with ⟨-, he⟩ | ⟨before, q, behind, hx⟩
  · rwa [he]
  · rw [hx.tree_eq]
    exact ht.graft hp hx.subtreeAt_eq

end Draft

/-- **The pending places of a run are the leaves of its tree that may be
expanded, from left to right.** -/
theorem Simulation.inOrder_draft (s : Simulation) : s.draft.InOrder s.grammar :=
  (Draft.inOrder_root s.grammar s.startName).foldl_apply s.applied

end PredictiveParsing
