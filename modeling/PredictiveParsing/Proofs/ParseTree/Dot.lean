import PredictiveParsing.Proofs.ParseTree.Graph
import PredictiveParsing.Proofs.Text.Words
import PredictiveParsing.Proofs.Xml.Markup

/-
Reading the text of a graph.

A quoted text ends at the first quote that has no backslash in front of it, and
a backslash and a quote stand for a quote.  Everything else of the text are
names of nodes and marks, with any spaces between them.

* `Dot.readQuoted`, `Dot.line?`, `Dot.read?` — the readers;
* `Dot.readQuoted_labelChars_append` — a label is read as it was written, unless a
  backslash at its end takes the quote behind it;
* `Dot.line?_text`, `Dot.line?_of_backslash` — how a line is read;
* `Dot.all?_linesChars`, `Dot.isReadable_of_all?` — how the lines are read;
* `ParseTree.exists_read_dot_iff` — which trees are told by their texts.

Design notes:

* What stands around a label is kept apart from it, as `labelMarks` and
  `styleChars`, so that how a line is read only depends on its label.
-/
namespace PredictiveParsing

open Xml

namespace Dot

/-! ### Readers -/

/-- A quoted text behind its opening quote, and what follows it. -/
def readQuoted : List Char → Option (List Char × List Char)
  | [] => none
  | '"' :: rest => some ([], rest)
  | '\\' :: '"' :: rest => (readQuoted rest).map fun q => ('"' :: q.1, q.2)
  | c :: rest => (readQuoted rest).map fun q => (c :: q.1, q.2)

/-- What follows some marks, with spaces before each of them. -/
def marks? (ms : List String) (cs : List Char) : Option (List Char) :=
  ms.foldlM (fun cs m => after? m.toList (skipSpace cs)) cs

/-- A quoted text. -/
def quoted? (cs : List Char) : Option (String × List Char) := do
  let cs ← marks? ["\""] cs
  let q ← readQuoted cs
  return (.ofList q.1, q.2)

/-- The name of a node, as its number. -/
def node? (cs : List Char) : Option (Nat × List Char) := do
  let cs ← marks? ["node"] cs
  match cs.takeWhile Char.isDigit with
  | [] => none
  | digits => return (Nat.ofDigitChars 10 digits 0, cs.dropWhile Char.isDigit)

/-- The shape of a node; boxes are leaves. -/
def shape? (cs : List Char) : Option (Bool × List Char) :=
  match marks? ["box"] cs with
  | some rest => some (true, rest)
  | none => (marks? ["ellipse"] cs).map fun rest => (false, rest)

/-- What follows the label of a node in its line. -/
def style? (number : Nat) (label : String) (cs : List Char) : Option (GraphLine × List Char) := do
  let cs ← marks? [",", "shape", "="] cs
  let shape ← shape? cs
  let cs ← marks? ["]", ";"] shape.2
  return (.node number label shape.1, cs)

/-- What follows the name of a node in its line. -/
def attributes? (number : Nat) (cs : List Char) : Option (GraphLine × List Char) := do
  let cs ← marks? ["[", "label", "="] cs
  let label ← quoted? cs
  style? number label.1 label.2

/-- What follows the arrow in the line of an edge. -/
def target? (parent : Nat) (cs : List Char) : Option (GraphLine × List Char) := do
  let child ← node? cs
  let cs ← marks? [";"] child.2
  return (.edge parent child.1, cs)

/-- A line of a graph. -/
def line? (cs : List Char) : Option (GraphLine × List Char) := do
  let node ← node? cs
  match marks? ["->"] node.2 with
  | some rest => target? node.1 rest
  | none => attributes? node.1 node.2

/-! ### What readers leave -/

theorem length_of_after?_add {front cs rest : List Char} (h : after? front cs = some rest) :
    rest.length + front.length = cs.length := by
  unfold after? at h
  split at h
  · next hp =>
    obtain rfl : cs.drop front.length = rest := by simpa using h
    obtain ⟨t, rfl⟩ := List.isPrefixOf_iff_prefix.1 hp
    simp [Nat.add_comm]
  · cases h

/-- Every mark takes at least one character. -/
theorem length_of_marks? {ms : List String} (hms : ∀ m ∈ ms, m.toList ≠ []) {cs rest : List Char}
    (h : marks? ms cs = some rest) : rest.length + ms.length ≤ cs.length := by
  induction ms generalizing cs with
  | nil =>
    obtain rfl := Option.some.inj h
    simp
  | cons m ms ih =>
    rw [List.forall_mem_cons] at hms
    rw [marks?, List.foldlM_cons] at h
    obtain ⟨cs', hm, h⟩ := Option.bind_eq_some_iff.1 h
    have hrest := ih hms.2 h
    have hmark := length_of_after?_add hm
    have hspace := length_skipSpace_le cs
    have hpos := List.length_pos_iff.2 hms.1
    simp only [List.length_cons]
    omega

theorem length_of_readQuoted {cs : List Char} {q : List Char × List Char}
    (h : readQuoted cs = some q) : q.2.length < cs.length := by
  induction cs using readQuoted.induct generalizing q with
  | case1 => cases h
  | case2 rest =>
    obtain rfl := Option.some.inj h
    exact Nat.lt_succ_self _
  | case3 rest ih =>
    obtain ⟨p, hp, rfl⟩ := Option.map_eq_some_iff.1 h
    have := ih hp
    simp only [List.length_cons]
    omega
  | case4 c rest h₁ h₂ ih =>
    rw [readQuoted.eq_4 c rest h₁ h₂] at h
    obtain ⟨p, hp, rfl⟩ := Option.map_eq_some_iff.1 h
    have := ih hp
    simp only [List.length_cons]
    omega

theorem length_of_quoted? {cs : List Char} {q : String × List Char} (h : quoted? cs = some q) :
    q.2.length ≤ cs.length := by
  obtain ⟨rest, hm, h⟩ := Option.bind_eq_some_iff.1 h
  obtain ⟨p, hp, h⟩ := Option.bind_eq_some_iff.1 h
  obtain rfl := Option.some.inj h
  have hmark := length_of_marks? (by decide) hm
  have hquoted := length_of_readQuoted hp
  show p.2.length ≤ _
  omega

theorem length_of_node? {cs : List Char} {n : Nat × List Char} (h : node? cs = some n) :
    n.2.length < cs.length := by
  obtain ⟨rest, hm, h⟩ := Option.bind_eq_some_iff.1 h
  have hmark := length_of_marks? (by decide) hm
  have hdrop := (List.dropWhile_sublist Char.isDigit (l := rest)).length_le
  split at h
  · cases h
  · obtain rfl := Option.some.inj h
    show (rest.dropWhile Char.isDigit).length < _
    simp only [List.length_cons, List.length_nil] at hmark
    omega

theorem length_of_shape? {cs : List Char} {n : Bool × List Char} (h : shape? cs = some n) :
    n.2.length ≤ cs.length := by
  rw [shape?] at h
  split at h
  · next rest hm =>
    obtain rfl := Option.some.inj h
    have := length_of_marks? (by decide) hm
    show rest.length ≤ _
    omega
  · obtain ⟨rest, hm, rfl⟩ := Option.map_eq_some_iff.1 h
    have := length_of_marks? (by decide) hm
    show rest.length ≤ _
    omega

theorem length_of_style? {number : Nat} {label : String} {cs : List Char}
    {l : GraphLine × List Char} (h : style? number label cs = some l) :
    l.2.length ≤ cs.length := by
  obtain ⟨cs₁, h₁, h⟩ := Option.bind_eq_some_iff.1 h
  obtain ⟨shape, h₂, h⟩ := Option.bind_eq_some_iff.1 h
  obtain ⟨cs₃, h₃, h⟩ := Option.bind_eq_some_iff.1 h
  obtain rfl := Option.some.inj h
  have := length_of_marks? (by decide) h₁
  have := length_of_shape? h₂
  have := length_of_marks? (by decide) h₃
  show cs₃.length ≤ _
  omega

theorem length_of_attributes? {number : Nat} {cs : List Char} {l : GraphLine × List Char}
    (h : attributes? number cs = some l) : l.2.length ≤ cs.length := by
  obtain ⟨cs₁, h₁, h⟩ := Option.bind_eq_some_iff.1 h
  obtain ⟨label, h₂, h⟩ := Option.bind_eq_some_iff.1 h
  have := length_of_marks? (by decide) h₁
  have := length_of_quoted? h₂
  have := length_of_style? h
  omega

theorem length_of_target? {parent : Nat} {cs : List Char} {l : GraphLine × List Char}
    (h : target? parent cs = some l) : l.2.length ≤ cs.length := by
  obtain ⟨child, hn, h⟩ := Option.bind_eq_some_iff.1 h
  obtain ⟨rest, hm, h⟩ := Option.bind_eq_some_iff.1 h
  obtain rfl := Option.some.inj h
  have := length_of_node? hn
  have := length_of_marks? (by decide) hm
  show rest.length ≤ _
  omega

theorem length_of_line? {cs : List Char} {l : GraphLine × List Char} (h : line? cs = some l) :
    l.2.length < cs.length := by
  obtain ⟨node, hn, h⟩ := Option.bind_eq_some_iff.1 h
  have hnode := length_of_node? hn
  split at h
  · next rest hm =>
    have := length_of_marks? (by decide) hm
    have := length_of_target? h
    omega
  · have := length_of_attributes? h
    omega

/-! ### Whole graphs -/

/-- Reads one line after the other, up to the closing brace. -/
def reader : Reader Char GraphLine where
  next cs :=
    match marks? ["\x7d"] cs with
    | some rest => some (none, rest)
    | none => (line? cs).map fun l => (some l.1, l.2)
  shorter := by
    intro cs l rest h
    split at h
    · cases h
    · obtain ⟨l', hl, he⟩ := Option.map_eq_some_iff.1 h
      obtain ⟨-, rfl⟩ := Prod.mk.inj he
      exact length_of_line? hl

/-- The title and the lines of a graph; nothing but spaces follows it. -/
def read? (text : String) : Option (String × List GraphLine) := do
  let cs ← marks? ["digraph"] text.toList
  let title ← quoted? cs
  let cs ← marks? ["\x7b"] title.2
  let lines ← reader.all? cs
  if (skipSpace lines.2).isEmpty then return (title.1, lines.1) else none

/-! ### Reading what is written -/

/-- The characters of a label with its quotes escaped. -/
def labelChars (s : List Char) : List Char :=
  s.flatMap fun c => if c = '"' then ['\\', '"'] else [c]

theorem readQuoted_cons {c : Char} (hc : c ≠ '"') {cs : List Char}
    (h : c = '\\' → cs.head? ≠ some '"') :
    readQuoted (c :: cs) = (readQuoted cs).map fun q => (c :: q.1, q.2) := by
  refine readQuoted.eq_4 c cs hc ?_
  rintro rest rfl rfl
  exact h rfl rfl

theorem head?_labelChars_append {s cs : List Char} (h : s = [] → cs.head? ≠ some '"') :
    (labelChars s ++ cs).head? ≠ some '"' := by
  cases s with
  | nil => exact h rfl
  | cons c s =>
    by_cases hc : c = '"'
    · simp [labelChars, hc]
    · simp [labelChars, hc]

/-- A label is read up to its end, unless a backslash at its end takes the quote
behind it. -/
theorem readQuoted_labelChars_append {s cs : List Char}
    (h : s.getLast? = some '\\' → cs.head? ≠ some '"') :
    readQuoted (labelChars s ++ cs) = (readQuoted cs).map fun q => (s ++ q.1, q.2) := by
  induction s with
  | nil => simp [labelChars]
  | cons c s ih =>
    have hlast : s.getLast? = some '\\' → cs.head? ≠ some '"' := by
      intro hs
      refine h ?_
      cases s with
      | nil => cases hs
      | cons d s => rwa [List.getLast?_cons_cons]
    have hmap : (readQuoted (labelChars s ++ cs)).map (fun q => (c :: q.1, q.2)) =
        (readQuoted cs).map fun q => (c :: s ++ q.1, q.2) := by
      rw [ih hlast, Option.map_map]
      rfl
    by_cases hc : c = '"'
    · subst hc
      exact hmap
    · have hcons : labelChars (c :: s) ++ cs = c :: (labelChars s ++ cs) := by simp [labelChars, hc]
      rw [hcons, readQuoted_cons hc, hmap]
      rintro rfl
      exact head?_labelChars_append fun hs => h (by rw [hs]; rfl)

/-! ### Lines as they are written -/

theorem toList_dotName (n : Nat) :
    (ParseTree.dotName n).toList = 'n' :: 'o' :: 'd' :: 'e' :: Nat.toDigits 10 n := by
  rw [ParseTree.dotName, String.toList_append, Nat.toString_eq_repr, Nat.toList_repr]
  rfl

/-- What stands between the name of a node and its label. -/
def labelMarks : List Char := " [label=\"".toList

/-- What stands behind the label of a node, and what follows it. -/
def styleChars (isLeaf : Bool) (rest : List Char) : List Char :=
  ", shape=".toList ++ ((if isLeaf then "box" else "ellipse").toList ++ ("];".toList ++ rest))

theorem toList_dotNode_append (n : Nat) (s : String) (isLeaf : Bool) (rest : List Char) :
    (ParseTree.dotNode n s isLeaf).toList ++ rest = ' ' :: ' ' :: ((ParseTree.dotName n).toList ++
      (labelMarks ++ (labelChars s.toList ++ '"' :: styleChars isLeaf rest))) := by
  show _ = ' ' :: ' ' :: ((ParseTree.dotName n).toList ++ (" [label=\"".toList ++
    (labelChars s.toList ++ '"' :: (", shape=".toList ++
      ((if isLeaf then "box" else "ellipse").toList ++ ("];".toList ++ rest))))))
  simp [ParseTree.dotNode, ParseTree.dotLabel, labelChars]

theorem toList_dotEdge (parent child : Nat) :
    (ParseTree.dotEdge parent child).toList = ' ' :: ' ' :: ((ParseTree.dotName parent).toList ++
      (" -> ".toList ++ ((ParseTree.dotName child).toList ++ [';']))) := by
  simp [ParseTree.dotEdge]

/-- The name of a node is read as its number, if no digit follows. -/
theorem node?_dotName (front rest : List Char) (n : Nat) (hf : front.all isSpace = true)
    (hr : ∀ c ∈ rest.head?, c.isDigit = false) :
    node? (front ++ ((ParseTree.dotName n).toList ++ rest)) = some (n, rest) := by
  have hdigits : ∀ c ∈ Nat.toDigits 10 n, c.isDigit = true :=
    fun c hc => Nat.isDigit_of_mem_toDigits (by decide) (by decide) hc
  have htake : (Nat.toDigits 10 n ++ rest).takeWhile Char.isDigit = Nat.toDigits 10 n := by
    rw [List.takeWhile_append_of_pos hdigits]
    cases rest with
    | nil => simp
    | cons c rest => simp [hr c rfl]
  have hdrop : (Nat.toDigits 10 n ++ rest).dropWhile Char.isDigit = rest := by
    rw [List.dropWhile_append_of_pos hdigits]
    cases rest with
    | nil => rfl
    | cons c rest => simp [hr c rfl]
  have hskip : skipSpace (front ++ ((ParseTree.dotName n).toList ++ rest)) =
      (ParseTree.dotName n).toList ++ rest := by
    rw [skipSpace, List.dropWhile_append_of_pos (List.all_eq_true.1 hf), toList_dotName]
    rfl
  have hmark : marks? ["node"] (front ++ ((ParseTree.dotName n).toList ++ rest)) =
      some (Nat.toDigits 10 n ++ rest) := by
    show (after? _ (skipSpace _)).bind _ = _
    rw [hskip, toList_dotName]
    rfl
  show (marks? ["node"] _).bind _ = _
  rw [hmark, Option.bind_some, htake, hdrop]
  split
  · next hnil => exact absurd hnil Nat.toDigits_ne_nil
  · rw [Nat.ofDigitChars_ten_toDigits]
    rfl

/-- An edge is read as it was written. -/
theorem line?_edge (parent child : Nat) (rest : List Char) :
    line? ('\n' :: (ParseTree.dotEdge parent child).toList ++ rest) =
      some (.edge parent child, rest) := by
  have hparent := node?_dotName ['\n', ' ', ' ']
    (' ' :: '-' :: '>' :: ' ' :: ((ParseTree.dotName child).toList ++ ';' :: rest)) parent rfl
    (by simp)
  have hchild := node?_dotName [' '] (';' :: rest) child rfl (by simp)
  have hchars : '\n' :: (ParseTree.dotEdge parent child).toList ++ rest =
      ['\n', ' ', ' '] ++ ((ParseTree.dotName parent).toList ++
        ' ' :: '-' :: '>' :: ' ' :: ((ParseTree.dotName child).toList ++ ';' :: rest)) := by
    rw [toList_dotEdge]
    simp
  rw [hchars]
  show (node? _).bind _ = _
  rw [hparent]
  show target? parent (' ' :: ((ParseTree.dotName child).toList ++ ';' :: rest)) = _
  show (node? ([' '] ++ ((ParseTree.dotName child).toList ++ ';' :: rest))).bind _ = _
  rw [hchild]
  rfl

theorem style?_styleChars (number : Nat) (label : String) (isLeaf : Bool) (rest : List Char) :
    style? number label (styleChars isLeaf rest) = some (.node number label isLeaf, rest) := by
  cases isLeaf <;> rfl

theorem fst_of_style? {number : Nat} {label : String} {cs : List Char} {l : GraphLine × List Char}
    (h : style? number label cs = some l) : ∃ isLeaf, l.1 = .node number label isLeaf := by
  obtain ⟨_, -, h⟩ := Option.bind_eq_some_iff.1 h
  obtain ⟨shape, -, h⟩ := Option.bind_eq_some_iff.1 h
  obtain ⟨_, -, h⟩ := Option.bind_eq_some_iff.1 h
  obtain rfl := Option.some.inj h
  exact ⟨shape.1, rfl⟩

theorem attributes?_labelMarks (number : Nat) (rest : List Char) :
    attributes? number (labelMarks ++ rest) =
      (readQuoted rest).bind fun q => style? number (.ofList q.1) q.2 := by
  have hmarks : marks? ["[", "label", "="] (labelMarks ++ rest) = some ('"' :: rest) := rfl
  have hquoted : quoted? ('"' :: rest) = (readQuoted rest).map fun q => (.ofList q.1, q.2) := by
    rw [Option.map_eq_bind]
    rfl
  rw [attributes?, hmarks]
  show (quoted? ('"' :: rest)).bind _ = _
  rw [hquoted, Option.bind_map]
  rfl

/-- How the line of a node is read depends on where its label is taken to end. -/
theorem line?_node (number : Nat) (label : String) (isLeaf : Bool) (rest : List Char) :
    line? ('\n' :: (ParseTree.dotNode number label isLeaf).toList ++ rest) =
      (readQuoted (labelChars label.toList ++ '"' :: styleChars isLeaf rest)).bind
        fun q => style? number (.ofList q.1) q.2 := by
  generalize hcs : labelChars label.toList ++ '"' :: styleChars isLeaf rest = cs
  have hhead : (labelMarks ++ cs).head? = some ' ' := rfl
  have hnode := node?_dotName ['\n', ' ', ' '] (labelMarks ++ cs) number rfl (by simp [hhead])
  have harrow : marks? ["->"] (labelMarks ++ cs) = none := rfl
  rw [List.cons_append, toList_dotNode_append, hcs, ← attributes?_labelMarks]
  show (node? (['\n', ' ', ' '] ++ ((ParseTree.dotName number).toList ++ (labelMarks ++ cs)))).bind
    _ = _
  rw [hnode, Option.bind_some, harrow]

end Dot

namespace GraphLine

/-- The label of the line, if it has one, does not end in a backslash. -/
def IsReadable (l : GraphLine) : Prop :=
  ∀ n ∈ l.node?, n.2.1.toList.getLast? ≠ some '\\'

theorem exists_of_not_isReadable {l : GraphLine} (h : ¬l.IsReadable) :
    ∃ number label isLeaf, l = .node number label isLeaf ∧ label.toList.getLast? = some '\\' := by
  cases l with
  | edge parent child => exact absurd (fun n hn => by cases hn) h
  | node number label isLeaf =>
    refine ⟨number, label, isLeaf, rfl, ?_⟩
    by_contra hne
    refine h fun n hn => ?_
    obtain rfl := Option.some.inj hn
    exact hne

end GraphLine

namespace Dot

variable {l : GraphLine}

/-- A readable line is read as it was written. -/
theorem line?_text (h : l.IsReadable) (rest : List Char) :
    line? ('\n' :: l.text.toList ++ rest) = some (l, rest) := by
  cases l with
  | edge parent child => exact line?_edge parent child rest
  | node number label isLeaf =>
    have hquoted : readQuoted (labelChars label.toList ++ '"' :: styleChars isLeaf rest) =
        some (label.toList, styleChars isLeaf rest) := by
      rw [readQuoted_labelChars_append fun he => absurd he (h _ rfl), readQuoted]
      simp
    rw [GraphLine.text, line?_node, hquoted, Option.bind_some, String.ofList_toList]
    exact style?_styleChars number label isLeaf rest

/-- A backslash at the end of a label is not read as such. -/
theorem line?_of_backslash {number : Nat} {label : String} {isLeaf : Bool} {rest : List Char}
    (h : label.toList.getLast? = some '\\') {m : GraphLine × List Char}
    (hm : line? ('\n' :: (GraphLine.node number label isLeaf).text.toList ++ rest) = some m) :
    ∃ label' isLeaf', m.1 = .node number label' isLeaf' ∧ label' ≠ label := by
  obtain ⟨front, hfront⟩ := List.getLast?_eq_some_iff.1 h
  have hchars : labelChars label.toList ++ '"' :: styleChars isLeaf rest =
      labelChars front ++ '\\' :: '"' :: styleChars isLeaf rest := by
    rw [hfront]
    simp [labelChars]
  rw [GraphLine.text, line?_node, hchars, readQuoted_labelChars_append (by simp), readQuoted] at hm
  obtain ⟨q, hq, hstyle⟩ := Option.bind_eq_some_iff.1 hm
  obtain ⟨p, hp, rfl⟩ := Option.map_eq_some_iff.1 hq
  obtain ⟨_, -, rfl⟩ := Option.map_eq_some_iff.1 hp
  obtain ⟨isLeaf', hnode⟩ := fst_of_style? hstyle
  refine ⟨_, isLeaf', hnode, fun he => ?_⟩
  -- In place of the backslash there is a quote.
  have hlist := congrArg String.toList he
  rw [String.toList_ofList, hfront] at hlist
  have hquote := List.append_cancel_left hlist
  cases hquote

/-! ### Lines one after the other -/

/-- The lines as they are written, each behind a line feed. -/
def linesChars (lines : List GraphLine) : List Char :=
  lines.flatMap fun l => '\n' :: l.text.toList

theorem linesChars_cons_append (l : GraphLine) (lines : List GraphLine) (cs : List Char) :
    linesChars (l :: lines) ++ cs = '\n' :: l.text.toList ++ (linesChars lines ++ cs) := by
  simp [linesChars]

theorem exists_toList_text (l : GraphLine) : ∃ cs, l.text.toList = ' ' :: ' ' :: 'n' :: cs := by
  cases l with
  | edge parent child =>
    rw [GraphLine.text, toList_dotEdge, toList_dotName]
    exact ⟨_, rfl⟩
  | node number label isLeaf =>
    rw [GraphLine.text, ← List.append_nil (ParseTree.dotNode number label isLeaf).toList,
      toList_dotNode_append, toList_dotName]
    exact ⟨_, rfl⟩

theorem next_text (l : GraphLine) (rest : List Char) :
    reader.next ('\n' :: l.text.toList ++ rest) =
      (line? ('\n' :: l.text.toList ++ rest)).map fun m => (some m.1, m.2) := by
  obtain ⟨cs, hcs⟩ := exists_toList_text l
  have hbrace : marks? ["\x7d"] ('\n' :: l.text.toList ++ rest) = none := by
    rw [hcs]
    rfl
  simp only [reader, hbrace]

/-- Readable lines are read as they were written. -/
theorem all?_linesChars {lines : List GraphLine} (h : ∀ l ∈ lines, l.IsReadable) :
    reader.all? (linesChars lines ++ ['\n', '\x7d']) = some (lines, []) := by
  induction lines with
  | nil => exact Reader.all?_of_next_none rfl
  | cons l lines ih =>
    rw [List.forall_mem_cons] at h
    have hnext := next_text l (linesChars lines ++ ['\n', '\x7d'])
    rw [line?_text h.1, Option.map_some] at hnext
    rw [linesChars_cons_append, Reader.all?_of_next_some hnext, ih h.2]
    rfl

/-- If lines with the same nodes are read, then none of the labels written ends
in a backslash. -/
theorem isReadable_of_all? {lines read : List GraphLine} {cs rest : List Char}
    (h : reader.all? (linesChars lines ++ cs) = some (read, rest))
    (hnodes : read.filterMap GraphLine.node? = lines.filterMap GraphLine.node?) :
    ∀ l ∈ lines, l.IsReadable := by
  induction lines generalizing read with
  | nil => simp
  | cons l lines ih =>
    have hnext := next_text l (linesChars lines ++ cs)
    rw [linesChars_cons_append] at h
    rw [List.forall_mem_cons]
    by_cases hl : l.IsReadable
    · rw [line?_text hl, Option.map_some] at hnext
      rw [Reader.all?_of_next_some hnext] at h
      obtain ⟨taken, htaken, he⟩ := Option.map_eq_some_iff.1 h
      obtain ⟨rfl, rfl⟩ := Prod.mk.inj he
      refine ⟨hl, ih htaken ?_⟩
      cases hn : l.node? <;> simpa [List.filterMap_cons, hn] using hnodes
    · -- What is read in place of an unreadable line is a node with another label.
      exfalso
      obtain ⟨number, label, isLeaf, rfl, hlabel⟩ := GraphLine.exists_of_not_isReadable hl
      cases hline : line? ('\n' :: (GraphLine.node number label isLeaf).text.toList ++
          (linesChars lines ++ cs)) with
      | none =>
        rw [hline] at hnext
        rw [Reader.all?_of_next_fails hnext] at h
        cases h
      | some m =>
        obtain ⟨label', isLeaf', hm, hne⟩ := line?_of_backslash hlabel hline
        rw [hline, Option.map_some, hm] at hnext
        rw [Reader.all?_of_next_some hnext] at h
        obtain ⟨taken, -, he⟩ := Option.map_eq_some_iff.1 h
        obtain ⟨rfl, -⟩ := Prod.mk.inj he
        simp only [List.filterMap_cons, GraphLine.node?, List.cons.injEq, Prod.mk.injEq] at hnodes
        exact hne hnodes.1.2.1

end Dot

namespace ParseTree

/-! ### Trees -/

/-- The text of a tree, with the title of graphs that are given none. -/
theorem toList_dot (t : ParseTree) : (t.dot defaultTitle).toList =
    "digraph \"Parse Tree\" \x7b".toList ++
      (Dot.linesChars (graphLines 0 t) ++ ['\n', '\x7d']) := by
  rw [dot, dotLines_eq, List.cons_append, Text.toList_join_cons, List.flatMap_append,
    List.flatMap_map]
  rfl

theorem read?_dot (t : ParseTree) : Dot.read? (t.dot defaultTitle) =
    (Dot.reader.all? (Dot.linesChars (graphLines 0 t) ++ ['\n', '\x7d'])).bind fun lines =>
      if (skipSpace lines.2).isEmpty then some (defaultTitle, lines.1) else none := by
  rw [Dot.read?, toList_dot]
  generalize Dot.linesChars (graphLines 0 t) ++ ['\n', '\x7d'] = cs
  rfl

/-- The lines of a tree are readable if no symbol of it ends in a backslash. -/
theorem isReadable_graphLines_iff {t : ParseTree} :
    (∀ l ∈ graphLines 0 t, l.IsReadable) ↔
      ∀ u ∈ t.subtrees, u.symbol.toList.getLast? ≠ some '\\' := by
  have hnodes : (∀ l ∈ graphLines 0 t, l.IsReadable) ↔
      ∀ n ∈ (graphLines 0 t).filterMap GraphLine.node?, n.2.1.toList.getLast? ≠ some '\\' := by
    simp only [List.mem_filterMap, GraphLine.IsReadable, Option.mem_def]
    exact ⟨fun h n ⟨l, hl, hn⟩ => h l hl n hn, fun h l hl n hn => h n ⟨l, hl, hn⟩⟩
  rw [hnodes, nodes_graphLines, List.forall_mem_map]
  constructor
  · intro h u hu
    obtain ⟨i, hi, rfl⟩ := List.mem_iff_getElem.1 hu
    exact h (t.subtrees[i], i) (List.mem_zipIdx_iff_getElem?.2 (by simp [hi]))
  · intro h u hu
    exact h u.1 (List.fst_mem_of_mem_zipIdx hu)

/-- If what is read describes the tree, then no symbol ends in a backslash. -/
theorem getLast?_ne_of_describes {t : ParseTree} {title : String} {lines : List GraphLine}
    (hread : Dot.read? (t.dot defaultTitle) = some (title, lines)) (hdesc : Describes lines t) :
    ∀ u ∈ t.subtrees, u.symbol.toList.getLast? ≠ some '\\' := by
  rw [read?_dot] at hread
  obtain ⟨read, hall, hsome⟩ := Option.bind_eq_some_iff.1 hread
  split at hsome
  · obtain ⟨-, rfl⟩ := Prod.mk.inj (Option.some.inj hsome)
    refine isReadable_graphLines_iff.1 (Dot.isReadable_of_all? hall ?_)
    rw [hdesc.nodes_eq, nodes_graphLines]
  · cases hsome

/-- **The text of a tree tells the tree if and only if no symbol of it ends in a
backslash**: what is read from the text then are the nodes, which are the
subtrees in preorder, and the edges, which lead to the children. -/
theorem exists_read_dot_iff (t : ParseTree) :
    (∃ lines, Dot.read? (t.dot defaultTitle) = some (defaultTitle, lines) ∧
      Describes lines t ∧ assemble [] lines = some t) ↔
      ∀ u ∈ t.subtrees, u.symbol.toList.getLast? ≠ some '\\' := by
  constructor
  · rintro ⟨lines, hread, hdesc, -⟩
    exact getLast?_ne_of_describes hread hdesc
  · intro h
    refine ⟨graphLines 0 t, ?_, describes_graphLines t, assemble_graphLines 0 t⟩
    rw [read?_dot, Dot.all?_linesChars (isReadable_graphLines_iff.2 h)]
    rfl

/-- A backslash at the end of a label takes the quote behind it. -/
theorem not_describes_of_backslash :
    ¬∃ lines, Dot.read? ((node "S" [node "a\\" []]).dot defaultTitle) =
      some (defaultTitle, lines) ∧ Describes lines (node "S" [node "a\\" []]) := by
  rintro ⟨lines, hread, hdesc⟩
  exact getLast?_ne_of_describes hread hdesc (node "a\\" []) (by simp [subtrees, forestSubtrees])
    (by decide)

end ParseTree

end PredictiveParsing
