import PredictiveParsing.Text.Cut
import PredictiveParsing.Xml.Reader

/-
References, attributes and tags.

* `Reference`, `Reference.read?` — what an ampersand begins;
* `Attribute`, `Attribute.reader` — the attributes of a tag;
* `Tag` — a tag that begins an element.

Design notes:

* A reference to an entity that is not predefined is kept; what it stands for
  depends on the document.
-/
namespace PredictiveParsing.Xml

/-! ### References -/

/-- What a reference stands for. -/
inductive Reference where
  | char (c : Char)
  | entity (name : String)
  deriving DecidableEq, Repr

namespace Reference

/-- The predefined entities. -/
def predefined : List (String × Char) :=
  [("lt", '<'), ("gt", '>'), ("amp", '&'), ("quot", '"'), ("apos", '\'')]

/-- The name of the entity, if it is one. -/
def entity? : Reference → Option String
  | char _ => none
  | entity name => some name

/-- The value of a hexadecimal digit. -/
def digit? (c : Char) : Option Nat :=
  if '0' ≤ c ∧ c ≤ '9' then some (c.toNat - 48)
  else if 'a' ≤ c ∧ c ≤ 'f' then some (c.toNat - 87)
  else if 'A' ≤ c ∧ c ≤ 'F' then some (c.toNat - 55)
  else none

/-- The number that digits write in a base. -/
def number? (base : Nat) (cs : List Char) : Option Nat :=
  if cs.isEmpty then none
  else cs.foldlM (fun n c => (digit? c).bind fun d =>
    if d < base then some (base * n + d) else none) 0

/-- The character with a code point, if a text may hold it. -/
def ofCode? (n : Nat) : Option Reference :=
  if h : n.isValidChar then
    let c := Char.ofNatAux n h
    if isXmlChar c then some (char c) else none
  else none

/-- What stands between ampersand and semicolon. -/
def ofBody? (e : Encoding) : List Char → Option Reference
  | '#' :: 'x' :: cs => (number? 16 cs).bind ofCode?
  | '#' :: cs => (number? 10 cs).bind ofCode?
  | cs =>
    match name? e cs with
    | some (name, []) => some (entity (.ofList name))
    | _ => none

/-- The reference with a predefined entity replaced by its character. -/
def resolved : Reference → Reference
  | char c => char c
  | entity name => ((predefined.lookup name).map char).getD (entity name)

/-- The reference behind an ampersand, and what follows it. -/
def read? (e : Encoding) (cs : List Char) : Option (Reference × List Char) :=
  match Text.cutAt [';'] cs with
  | none => none
  | some (body, rest) => (ofBody? e body).map fun r => (r, rest)

theorem length_of_read? {e : Encoding} {cs rest : List Char} {r : Reference}
    (h : read? e cs = some (r, rest)) :
    rest.length ≤ cs.length := by
  unfold read? at h
  split at h
  · simp at h
  · next body rest' hc =>
    obtain ⟨r', -, he⟩ := Option.map_eq_some_iff.1 h
    obtain ⟨-, rfl⟩ := Prod.mk.inj he
    exact Text.length_of_cutAt hc

end Reference

/-! ### Attributes -/

/-- An attribute as it is written in a tag. -/
structure Attribute where
  name : QualifiedName
  /-- The value, piece by piece. -/
  value : List Reference
  deriving DecidableEq, Repr, Inhabited

namespace Attribute

/-- One piece of a value: a reference, or one character, a space for any kind
of space. -/
def nextPiece (e : Encoding) : List Char → Option (Option Reference × List Char)
  | [] => some (none, [])
  | '<' :: _ => none
  | '&' :: cs => (Reference.read? e cs).map fun r => (some r.1.resolved, r.2)
  | c :: cs => some (some (.char (if isSpace c then ' ' else c)), cs)

/-- Reads a value piece by piece. -/
def pieceReader (e : Encoding) : Reader Char Reference where
  next := nextPiece e
  shorter := by
    intro cs a rest h
    unfold nextPiece at h
    split at h
    · simp at h
    · simp at h
    · obtain ⟨⟨r, rest'⟩, hr, he⟩ := Option.map_eq_some_iff.1 h
      obtain ⟨-, rfl⟩ := Prod.mk.inj he
      have := Reference.length_of_read? hr
      simp only [List.length_cons]
      omega
    · obtain ⟨-, rfl⟩ := Prod.mk.inj (Option.some.inj h)
      simp

/-- The pieces of a value. -/
def pieces? (e : Encoding) (cs : List Char) : Option (List Reference) :=
  ((pieceReader e).all? cs).map (·.1)

/-- The text between quotes at the front, and what follows it. -/
def readQuoted? : List Char → Option (List Char × List Char)
  | [] => none
  | quote :: cs => if quote = '"' ∨ quote = '\'' then Text.cutAt [quote] cs else none

/-- The value behind an equals sign, spaces around which do not count, and what
follows it. -/
def readValue? (cs : List Char) : Option (List Char × List Char) :=
  match after? ['='] (skipSpace cs) with
  | none => none
  | some rest => readQuoted? (skipSpace rest)

theorem length_of_readQuoted? {cs body rest : List Char}
    (h : readQuoted? cs = some (body, rest)) : rest.length ≤ cs.length := by
  unfold readQuoted? at h
  split at h
  · simp at h
  · split at h
    · have := Text.length_of_cutAt h
      simp only [List.length_cons]
      omega
    · simp at h

theorem length_of_readValue? {cs body rest : List Char}
    (h : readValue? cs = some (body, rest)) : rest.length ≤ cs.length := by
  unfold readValue? at h
  split at h
  · simp at h
  · next rest' ha =>
    have h₁ := length_skipSpace_le cs
    have h₂ := length_of_after? ha
    have h₃ := length_skipSpace_le rest'
    have h₄ := length_of_readQuoted? h
    omega

/-- The next attribute of a tag, if there is one more; it stands behind a
space. -/
def next (e : Encoding) (cs : List Char) : Option (Option Attribute × List Char) :=
  match skipSpace cs with
  | '>' :: rest => some (none, '>' :: rest)
  | '/' :: rest => some (none, '/' :: rest)
  | rest =>
    if !cs.head?.any isSpace then none
    else
      match QualifiedName.read? e rest with
      | none => none
      | some (name, rest) =>
        match readValue? rest with
        | none => none
        | some (body, rest) => (pieces? e body).map fun value => (some ⟨name, value⟩, rest)

/-- Reads the attributes of a tag. -/
def reader (e : Encoding) : Reader Char Attribute where
  next := next e
  shorter := by
    intro cs a rest h
    unfold next at h
    have h₁ := length_skipSpace_le cs
    split at h
    · simp at h
    · simp at h
    · split at h
      · simp at h
      · split at h
        · simp at h
        · next name rest₁ hn =>
          split at h
          · simp at h
          · next body rest₂ hv =>
            obtain ⟨a', -, he⟩ := Option.map_eq_some_iff.1 h
            obtain ⟨-, rfl⟩ := Prod.mk.inj he
            have h₂ := QualifiedName.length_of_read? hn
            have h₃ := length_of_readValue? hv
            omega

/-- Where the attributes of a tag end, no more is left than was there. -/
theorem length_of_next_none {e : Encoding} {cs rest : List Char}
    (h : next e cs = some (none, rest)) :
    rest.length ≤ cs.length := by
  unfold next at h
  have h₁ := length_skipSpace_le cs
  split at h
  · next hs => rw [hs] at h₁; obtain rfl := (Prod.mk.inj (Option.some.inj h)).2; exact h₁
  · next hs => rw [hs] at h₁; obtain rfl := (Prod.mk.inj (Option.some.inj h)).2; exact h₁
  · split at h
    · simp at h
    · split at h
      · simp at h
      · split at h <;> simp at h

end Attribute

/-! ### Tags -/

/-- A tag that begins an element. -/
structure Tag where
  name : QualifiedName
  attributes : List Attribute := []
  deriving DecidableEq, Repr, Inhabited

end PredictiveParsing.Xml
