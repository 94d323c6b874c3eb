import PredictiveParsing.Proofs.Xml.Markup

/-
Elements as they are written, with their layout.

What is written between tags for the eye is read as text: the text of an element
with children is the new line in front of the first of them.

* `Element.laidOut` — an element with its layout as text;
* `Element.find?_laidOut` — the layout leaves children where they were;
* `Element.withTag_laidOut` — the elements with a tag, level by level;
* `Element.withTag_branch_map` — the elements with a tag in a list of elements
  of one kind;
* `Element.IsWritable` — the elements that can be written;
* `Element.IsWritable.isWritableChar` — nothing but allowed characters is
  written.
-/
namespace PredictiveParsing.Xml

/-! ### Elements with their layout -/

namespace Element

mutual

/-- An element as it is read after it was written at some depth. -/
def laidOut (depth : Nat) : Element → Element
  | node t as s cs =>
    if cs.isEmpty then node t as s []
    else node t as (.ofList (newLine (depth + 1))) (laidOutForest (depth + 1) cs)

/-- The same for each of some elements. -/
def laidOutForest (depth : Nat) : List Element → List Element
  | [] => []
  | c :: cs => laidOut depth c :: laidOutForest depth cs

end

theorem laidOutForest_eq_map (depth : Nat) (cs : List Element) :
    laidOutForest depth cs = cs.map (laidOut depth) := by
  induction cs with
  | nil => rfl
  | cons c cs ih => rw [laidOutForest, ih, List.map_cons]

@[simp] theorem laidOut_leaf (depth : Nat) (tag text : String) :
    (leaf tag text).laidOut depth = leaf tag text := by
  simp [leaf, laidOut]

@[simp] theorem tag_laidOut (depth : Nat) (e : Element) : (e.laidOut depth).tag = e.tag := by
  obtain ⟨t, as, s, cs⟩ := e
  rw [laidOut]
  split <;> rfl

@[simp] theorem attributes_laidOut (depth : Nat) (e : Element) :
    (e.laidOut depth).attributes = e.attributes := by
  obtain ⟨t, as, s, cs⟩ := e
  rw [laidOut]
  split <;> rfl

@[simp] theorem children_laidOut (depth : Nat) (e : Element) :
    (e.laidOut depth).children = e.children.map (laidOut (depth + 1)) := by
  obtain ⟨t, as, s, cs⟩ := e
  rw [laidOut, laidOutForest_eq_map]
  split
  · next h => simp [children, List.isEmpty_iff.1 h]
  · rfl

/-- The layout keeps children apart as they were. -/
theorem find?_laidOut (depth : Nat) (e : Element) (tag : String) :
    (e.laidOut depth).find? tag = (e.find? tag).map (laidOut (depth + 1)) := by
  rw [find?, find?, children_laidOut, List.find?_map]
  simp only [Function.comp_def, tag_laidOut]

/-! ### Elements with a tag -/

theorem forestWithTag_eq_flatMap (tag : String) (cs : List Element) :
    forestWithTag tag cs = cs.flatMap (withTag tag) := by
  induction cs with
  | nil => rfl
  | cons c cs ih => rw [forestWithTag, ih, List.flatMap_cons]

theorem withTag_eq (tag : String) (e : Element) :
    e.withTag tag = (if e.tag = tag then [e] else []) ++ e.children.flatMap (withTag tag) := by
  obtain ⟨t, as, s, cs⟩ := e
  rw [withTag, forestWithTag_eq_flatMap]
  show _ = (if t = tag then _ else _) ++ _
  split <;> rfl

/-- The elements with a tag, level by level. -/
theorem withTag_laidOut (tag : String) (depth : Nat) (e : Element) :
    (e.laidOut depth).withTag tag = (if e.tag = tag then [e.laidOut depth] else []) ++
      e.children.flatMap fun c => (c.laidOut (depth + 1)).withTag tag := by
  rw [withTag_eq, tag_laidOut, children_laidOut, List.flatMap_map]

theorem withTag_leaf {tag t : String} (h : t ≠ tag) (text : String) :
    (leaf t text).withTag tag = [] := by
  rw [withTag_eq, show (leaf t text).tag = t from rfl, if_neg h]
  rfl

/-- The elements with a tag in a list of elements of one kind: all of them, if
it is theirs, and otherwise none. -/
theorem withTag_branch_map {α : Type} {f : α → Element} {tag parent t : String} {depth : Nat}
    (hparent : parent ≠ tag)
    (hf : ∀ x, ((f x).laidOut (depth + 1)).withTag tag =
      if t = tag then [(f x).laidOut (depth + 1)] else []) (xs : List α) :
    ((branch parent (xs.map f)).laidOut depth).withTag tag =
      if t = tag then xs.map fun x => (f x).laidOut (depth + 1) else [] := by
  rw [withTag_laidOut, show (branch parent (xs.map f)).tag = parent from rfl, if_neg hparent,
    List.nil_append, show (branch parent (xs.map f)).children = xs.map f from rfl, List.flatMap_map]
  simp only [hf]
  by_cases ht : t = tag
  · simp only [if_pos ht]
    exact List.map_eq_flatMap.symm
  · simp [ht]

end Element

/-! ### Elements that can be written -/

theorem isWritableChar_newLine (depth : Nat) : ∀ c ∈ newLine depth, IsWritableChar c := by
  intro c hc
  rcases List.mem_cons.1 hc with rfl | hc
  · decide
  · rw [List.eq_of_mem_replicate hc]
    decide

namespace Element

/-- An element that can be written: names are plain, those of attributes
differ, and the text has no carriage return. -/
inductive IsWritable : Element → Prop where
  | node {t : String} {as : List (String × String)} {s : String} {cs : List Element}
      (tag : IsPlainName t) (attributes : ∀ a ∈ as, IsPlainAttribute a)
      (nodup : (as.map (·.1)).Nodup)
      (text : ∀ c ∈ s.toList, IsWritableChar c)
      (children : ∀ c ∈ cs, c.IsWritable) : IsWritable (node t as s cs)

theorem isWritable_leaf {tag text : String} (ht : IsPlainName tag)
    (h : ∀ c ∈ text.toList, IsWritableChar c) : (leaf tag text).IsWritable :=
  .node ht (List.forall_mem_nil _) List.nodup_nil h (List.forall_mem_nil _)

theorem isWritable_branch {tag : String} {cs : List Element} (ht : IsPlainName tag)
    (h : ∀ c ∈ cs, c.IsWritable) : (branch tag cs).IsWritable :=
  .node ht (List.forall_mem_nil _) List.nodup_nil (by simp) h

theorem write_eq_cons (depth : Nat) (e : Element) : ∃ cs, e.write depth = '<' :: cs := by
  obtain ⟨t, as, s, cs⟩ := e
  rw [write]
  split
  · split
    · exact ⟨_, rfl⟩
    · exact ⟨_, rfl⟩
  · exact ⟨_, rfl⟩

theorem writeForest_eq_flatMap (depth : Nat) (cs : List Element) :
    writeForest depth cs = cs.flatMap fun c => newLine depth ++ c.write depth := by
  induction cs with
  | nil => rfl
  | cons c cs ih => rw [writeForest, ih, List.flatMap_cons]

/-- Nothing but allowed characters is written. -/
theorem IsWritable.isWritableChar {e : Element} (h : e.IsWritable) (depth : Nat) :
    ∀ c ∈ e.write depth, IsWritableChar c := by
  induction h generalizing depth with
  | @node t as s cs tag attributes nodup text children ih =>
    have hmarks : IsWritableChar '<' ∧ IsWritableChar '>' ∧
        ∀ c ∈ [' ', '/', '>'], IsWritableChar c := by
      decide
    obtain ⟨hopen, hclose, hlone⟩ := hmarks
    have hbegin : ∀ c ∈ '<' :: writtenTag t as, IsWritableChar c :=
      List.forall_mem_cons.2 ⟨hopen, isWritableChar_writtenTag tag attributes⟩
    have hend := isWritableChar_writtenEnd tag
    have htext : ∀ c ∈ escaped s, IsWritableChar c := by
      intro c hc
      obtain ⟨d, hd, hc⟩ := List.mem_flatMap.1 hc
      exact isWritableChar_escapedChar (text d hd) c hc
    have hforest : ∀ c ∈ writeForest (depth + 1) cs, IsWritableChar c := by
      rw [writeForest_eq_flatMap]
      intro c hc
      obtain ⟨d, hd, hc⟩ := List.mem_flatMap.1 hc
      exact List.forall_mem_append.2 ⟨isWritableChar_newLine _, ih d hd _⟩ c hc
    simp only [write]
    split
    · split
      · exact List.forall_mem_append.2 ⟨hbegin, hlone⟩
      · rw [List.forall_mem_append, List.forall_mem_append, List.forall_mem_cons (a := '>')]
        exact ⟨⟨hbegin, hclose, htext⟩, hend⟩
    · rw [List.forall_mem_append, List.forall_mem_append, List.forall_mem_append,
        List.forall_mem_cons (a := '>')]
      exact ⟨⟨⟨hbegin, hclose, hforest⟩, isWritableChar_newLine depth⟩, hend⟩

end Element

end PredictiveParsing.Xml
