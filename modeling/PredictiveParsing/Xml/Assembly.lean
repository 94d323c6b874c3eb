import PredictiveParsing.Xml.Account
import PredictiveParsing.Xml.Element
import PredictiveParsing.Xml.Encoding
import PredictiveParsing.Xml.Passage
import PredictiveParsing.Xml.Scope
import PredictiveParsing.Xml.Token

/-
Elements put together from tokens.

A document is an optional declaration, then one element, with space, comments
and instructions around it; a document type may stand before the element.
Whatever breaks the rules of XML or of its namespaces makes the document
unreadable.

* `Frame` — an element whose end has not been reached;
* `Assembly` — what the tokens so far amount to;
* `Assembly.take?` — one more token;
* `Frame.withEntity?` — an element with the text of an entity inside it;
* `afterDeclaration?` — the declaration of a document;
* `Assembly.ofChars?` — what the characters of a document amount to;
* `Element.read?` — the element of a document.

Design notes:

* Every character has to be an allowed one wherever it stands.
* The text of an entity is read like a document of its own, inside the element
  where it is referred to; what begins in it has to end in it.
* A document whose references stand for a great deal more than it holds itself
  is refused.
-/
namespace PredictiveParsing.Xml

/-- An element whose end has not been reached. -/
structure Frame where
  /-- The name that its end has to repeat. -/
  name : QualifiedName
  tag : String
  attributes : List (String × String)
  scope : Scope
  /-- The text in front of the first child, in parts, the latest first. -/
  text : List (List Char) := []
  /-- The children so far, the latest first. -/
  children : List Element := []
  deriving Repr

namespace Frame

/-- The element, closed where it stands. -/
def close (f : Frame) : Element :=
  .node f.tag f.attributes (.ofList f.text.reverse.flatten) f.children.reverse

/-- One more child. -/
def addChild (e : Element) (f : Frame) : Frame :=
  { f with children := e :: f.children }

/-- More text; behind a child it is dropped. -/
def addText (cs : List Char) (f : Frame) : Frame :=
  if f.children.isEmpty then { f with text := cs :: f.text } else f

end Frame

/-- What the tokens so far amount to. -/
inductive Assembly where
  /-- Nothing but remarks, and perhaps a document type. -/
  | before (hasDoctype : Bool)
  /-- Inside an element, which may be inside others. -/
  | within (innermost : Frame) (outer : List Frame)
  /-- The element is complete. -/
  | after (root : Element)
  deriving Repr

namespace Assembly

/-- An element begun inside a scope. -/
def open? (d : Definitions) (scope : Scope) (t : Tag) : Option Frame := do
  let attributes ← d.attributes? t
  let scope ← scope.enter? attributes
  let tag ← scope.tagName? t.name
  let attributes ← scope.attributes? attributes
  return { name := t.name, tag, attributes, scope }

/-- An element complete inside others. -/
def finish (e : Element) : List Frame → Assembly
  | [] => after e
  | f :: fs => within (f.addChild e) fs

/-- One more token; `entity?` puts the text of an entity into an element. -/
def take? (d : Definitions) (entity? : String → Frame → Option Frame) :
    Assembly → Token → Option Assembly
  | a, .remark => some a
  | before false, .doctype _ => some (before true)
  | before b, .data cs => if cs.all isSpace then some (before b) else none
  | before _, .opening t => (open? d .outermost t).map fun f => within f []
  | before _, .lone t => (open? d .outermost t).map fun f => after f.close
  | within f fs, .data cs => some (within (f.addText cs) fs)
  | within f fs, .marked cs => some (within (f.addText cs) fs)
  | within f fs, .reference name => (entity? name f).map fun f => within f fs
  | within f fs, .opening t => (open? d f.scope t).map fun g => within g (f :: fs)
  | within f fs, .lone t => (open? d f.scope t).map fun g => finish g.close (f :: fs)
  | within f fs, .closing n => if n = f.name then some (finish f.close fs) else none
  | after e, .data cs => if cs.all isSpace then some (after e) else none
  | _, _ => none

end Assembly

/-- An element with the text of an entity inside it, in which at most `depth`
others are nested. -/
def Frame.withEntity? (d : Definitions) : (depth : Nat) → (name : String) → Frame → Option Frame
  | 0, _, _ => none
  | depth + 1, name, f => do
    let tokens ← Token.readAll? .utf8 (← d.text? name)
    match ← tokens.foldlM (Assembly.take? d (withEntity? d depth)) (.within f []) with
    | .within f [] => return f
    | _ => none

/-- What all the tokens of a document amount to. -/
def Assembly.ofTokens? (d : Definitions) (tokens : List Token) : Option Assembly :=
  tokens.foldlM (take? d (Frame.withEntity? d d.entities.length)) (before false)

/-! ### Declarations -/

/-- The characters of the values in a declaration. -/
def isDeclaredChar (c : Char) : Bool :=
  c.isAlphanum || c = '.' || c = '-' || c = '_'

/-- The next part `name = "value"` of a declaration, if there is one more; it
stands behind a space. -/
def nextPart (cs : List Char) : Option (Option (String × String) × List Char) :=
  match skipSpace cs with
  | [] => some (none, [])
  | rest =>
    if !cs.head?.any isSpace then none
    else
      match name? .utf8 rest with
      | none => none
      | some (name, rest) =>
        match Attribute.readValue? rest with
        | none => none
        | some (value, rest) =>
          if value.all isDeclaredChar then some (some (.ofList name, .ofList value), rest)
          else none

/-- Reads the parts of a declaration. -/
def partReader : Reader Char (String × String) where
  next := nextPart
  shorter := by
    intro cs a rest h
    unfold nextPart at h
    have h₁ := length_skipSpace_le cs
    split at h
    · simp at h
    · split at h
      · simp at h
      · split at h
        · simp at h
        · next name rest₁ hn =>
          split at h
          · simp at h
          · next value rest₂ hv =>
            split at h
            · obtain ⟨-, rfl⟩ := Prod.mk.inj (Option.some.inj h)
              have h₂ := length_of_name? hn
              have h₃ := Attribute.length_of_readValue? hv
              omega
            · simp at h

/-- Whether an encoding may be named; none is made use of. -/
def isEncodingName (s : String) : Bool :=
  s.toList.head?.any Char.isAlpha

/-- Whether a document says that it stands alone, by the parts of its
declaration: a version, then perhaps an encoding, then perhaps a word on
standing alone. -/
def standsAlone? : List (String × String) → Option Bool
  | ("version", _) :: rest =>
    let rest := match rest with
      | ("encoding", e) :: rest => if isEncodingName e then rest else ("encoding", e) :: rest
      | rest => rest
    match rest with
    | [] => some false
    | [("standalone", "yes")] => some true
    | [("standalone", "no")] => some false
    | _ => none
  | _ => none

/-- The document behind its declaration, if it has one, and whether it says that
it stands alone. -/
def afterDeclaration? (cs : List Char) : Option (Bool × List Char) :=
  match after? "<?xml".toList cs with
  | none => some (false, cs)
  | some rest =>
    if rest.head?.any isSpace then
      match Text.cutAt ['?', '>'] rest with
      | none => none
      | some (inside, rest) => do
        let parts ← partReader.all? inside
        let alone ← standsAlone? parts.1
        return (alone, rest)
    else some (false, cs)

/-! ### Documents -/

/-- The document type among tokens, if there is one. -/
def doctypeOf (tokens : List Token) : Option Doctype :=
  tokens.findSome? fun
    | .doctype t => some t
    | _ => none

/-- What the characters of a document amount to, with its definitions; they are
given as they are written. -/
def Assembly.ofChars? (e : Encoding) (written : List SizedChar) :
    Option (Definitions × Assembly) := do
  let cs := Text.withLineFeeds (withoutMark (written.map (·.1)))
  guard (cs.all isXmlChar)
  let (standsAlone, cs) ← afterDeclaration? cs
  let tokens ← Token.readAll? e cs
  guard (isInProportion e written standsAlone (doctypeOf tokens))
  let d ← Definitions.ofDoctype? e standsAlone (doctypeOf tokens)
  return (d, ← ofTokens? d tokens)

/-- The element of a document; none if the document is not well-formed. -/
def Element.read? (document : String) : Option Element := do
  let e := Encoding.ofText document
  let cs ← e.charactersOf? document
  match ← Assembly.ofChars? e (cs.map fun c => (c, e.sizeOf c)) with
  | (_, .after root) => if hasWholeLiterals cs e then some root else none
  | _ => none

end PredictiveParsing.Xml
