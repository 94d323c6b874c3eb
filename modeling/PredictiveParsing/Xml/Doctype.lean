import PredictiveParsing.Xml.Declaration
import PredictiveParsing.Xml.Remark

/-
Document types.

A document type names the element that a document should have.  It may name
something external with further declarations, and it may hold declarations
itself, between square brackets.

* `Doctype` — a document type;
* `Doctype.read?` — reads a document type;
* `Doctype.length_of_read?` — what follows it is no longer than the text.

Design notes:

* The element that is named does not matter.
* A reference to declarations elsewhere may stand between declarations.  It is
  kept, because what comes behind it may then count or not.
-/
namespace PredictiveParsing.Xml

/-- What may stand between the brackets of a document type. -/
inductive SubsetItem where
  | remark
  /-- A reference to declarations elsewhere. -/
  | reference
  | declaration (d : Declaration)
  deriving DecidableEq, Repr, Inhabited

/-- A document type. -/
structure Doctype where
  /-- Whether something external is named. -/
  isExternal : Bool
  items : List SubsetItem := []
  deriving DecidableEq, Repr, Inhabited

namespace SubsetItem

/-- The declaration behind its opening mark, and what follows it. -/
def readDeclaration? (e : Encoding) (cs : List Char) : Option (SubsetItem × List Char) :=
  match name? e cs with
  | none => none
  | some (subject, rest) =>
    if !rest.head?.any isSpace then none
    else
      match (Lexeme.reader e).all? rest with
      | some (ls, '>' :: rest) =>
        (Declaration.ofLexemes? (.ofList subject) ls).map fun d => (declaration d, rest)
      | _ => none

/-- The reference behind its percent sign, and what follows it. -/
def readReference? (e : Encoding) (cs : List Char) : Option (SubsetItem × List Char) :=
  match name? e cs with
  | some (_, ';' :: rest) => some (reference, rest)
  | _ => none

/-- The next item, if there is one before the closing bracket. -/
def next (e : Encoding) (cs : List Char) : Option (Option SubsetItem × List Char) :=
  match skipSpace cs with
  | ']' :: rest => some (none, ']' :: rest)
  | '%' :: rest => (readReference? e rest).map fun r => (some r.1, r.2)
  | '<' :: '?' :: rest => (afterInstruction? e rest).map fun rest => (some remark, rest)
  | '<' :: '!' :: '-' :: '-' :: rest => (afterComment? rest).map fun rest => (some remark, rest)
  | '<' :: '!' :: rest => (readDeclaration? e rest).map fun r => (some r.1, r.2)
  | _ => none

theorem length_of_readDeclaration? {e : Encoding} {cs rest : List Char} {i : SubsetItem}
    (h : readDeclaration? e cs = some (i, rest)) : rest.length ≤ cs.length := by
  unfold readDeclaration? at h
  split at h
  · simp at h
  · next subject rest₁ hn =>
    have h₁ := length_of_name? hn
    split at h
    · simp at h
    · split at h
      · next ls rest₂ hl =>
        obtain ⟨d, -, he⟩ := Option.map_eq_some_iff.1 h
        obtain rfl := (Prod.mk.inj he).2
        have h₂ := (Lexeme.reader e).length_of_all? Lexeme.length_of_next_none hl
        simp only [List.length_cons] at h₂
        omega
      · simp at h

theorem length_of_readReference? {e : Encoding} {cs rest : List Char} {i : SubsetItem}
    (h : readReference? e cs = some (i, rest)) : rest.length ≤ cs.length := by
  unfold readReference? at h
  split at h
  · next rest₁ hn =>
    obtain rfl := (Prod.mk.inj (Option.some.inj h)).2
    have h₁ := length_of_name? hn
    simp only [List.length_cons] at h₁
    omega
  · simp at h

/-- Where the items end, no more is left than was there. -/
theorem length_of_next_none {e : Encoding} {cs rest : List Char}
    (h : next e cs = some (none, rest)) :
    rest.length ≤ cs.length := by
  unfold next at h
  have h₁ := length_skipSpace_le cs
  split at h
  · next hs => rw [hs] at h₁; obtain rfl := (Prod.mk.inj (Option.some.inj h)).2; exact h₁
  all_goals simp at h

/-- Reads one item after the other, up to the closing bracket. -/
def reader (e : Encoding) : Reader Char SubsetItem where
  next := next e
  shorter := by
    intro cs a rest h
    unfold next at h
    have h₁ := length_skipSpace_le cs
    split at h
    · simp at h
    · next hs =>
      obtain ⟨r, hr, he⟩ := Option.map_eq_some_iff.1 h
      obtain rfl := (Prod.mk.inj he).2
      have h₂ := length_of_readReference? hr
      rw [hs, List.length_cons] at h₁
      omega
    · next hs =>
      obtain ⟨r, hr, he⟩ := Option.map_eq_some_iff.1 h
      obtain rfl := (Prod.mk.inj he).2
      have h₂ := length_of_afterInstruction? hr
      simp only [hs, List.length_cons] at h₁
      omega
    · next hs =>
      obtain ⟨r, hr, he⟩ := Option.map_eq_some_iff.1 h
      obtain rfl := (Prod.mk.inj he).2
      have h₂ := length_of_afterComment? hr
      simp only [hs, List.length_cons] at h₁
      omega
    · next hs =>
      obtain ⟨r, hr, he⟩ := Option.map_eq_some_iff.1 h
      obtain rfl := (Prod.mk.inj he).2
      have h₂ := length_of_readDeclaration? hr
      simp only [hs, List.length_cons] at h₁
      omega
    · simp at h

end SubsetItem

namespace Doctype

/-- Whether something external is named behind the name of the element; none if
there is anything else. -/
def isExternal? : List Lexeme → Option Bool
  | [.name _ none] => some false
  | .name _ none :: ls => if Declaration.afterExternal? ls = some [] then some true else none
  | _ => none

/-- The items between brackets, if there are brackets, and what follows. -/
def readItems? (e : Encoding) : List Char → Option (List SubsetItem × List Char)
  | '[' :: cs =>
    match (SubsetItem.reader e).all? cs with
    | some (items, ']' :: rest) => some (items, skipSpace rest)
    | _ => none
  | cs => some ([], cs)

/-- The document type behind its opening mark, and what follows it. -/
def read? (e : Encoding) (cs : List Char) : Option (Doctype × List Char) :=
  if !cs.head?.any isSpace then none
  else
    match (Lexeme.reader e).all? cs with
    | none => none
    | some (ls, rest) =>
      match isExternal? ls, readItems? e rest with
      | some isExternal, some (items, '>' :: rest) => some (⟨isExternal, items⟩, rest)
      | _, _ => none

theorem length_of_readItems? {e : Encoding} {cs rest : List Char} {items : List SubsetItem}
    (h : readItems? e cs = some (items, rest)) : rest.length ≤ cs.length := by
  unfold readItems? at h
  split at h
  · split at h
    · next items' rest₁ hi =>
      obtain rfl := (Prod.mk.inj (Option.some.inj h)).2
      have h₁ := (SubsetItem.reader e).length_of_all? SubsetItem.length_of_next_none hi
      have h₂ := length_skipSpace_le rest₁
      simp only [List.length_cons] at *
      omega
    · simp at h
  · obtain rfl := (Prod.mk.inj (Option.some.inj h)).2; exact Nat.le_refl _

theorem length_of_read? {e : Encoding} {cs rest : List Char} {d : Doctype}
    (h : read? e cs = some (d, rest)) :
    rest.length ≤ cs.length := by
  unfold read? at h
  split at h
  · simp at h
  · split at h
    · simp at h
    · next ls rest₁ hl =>
      have h₁ := (Lexeme.reader e).length_of_all? Lexeme.length_of_next_none hl
      split at h
      · next isExternal items rest₂ _ hi =>
        obtain rfl := (Prod.mk.inj (Option.some.inj h)).2
        have h₂ := length_of_readItems? hi
        simp only [List.length_cons] at h₂
        omega
      · simp at h

end Doctype

end PredictiveParsing.Xml
