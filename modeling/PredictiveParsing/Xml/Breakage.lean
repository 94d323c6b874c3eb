import PredictiveParsing.Xml.Assembly
import PredictiveParsing.Xml.Passage

/-
Documents in UTF-16 that break a character.

A long passage may hold a piece that is taken for a reference whose name ends in
a part of a character.  Such a document is not just unreadable: what is left of
the character is reported, provided that everything in front of it is in order.
What follows does not matter any more.

* `readsLiteral` — whether a document is in order up to the end of a text
  between quotes;
* `handsOn` — whether it is in order up to a reference that is handed on;
* `breakage?` — what is reported of a document.

Design notes:

* A document that is broken off in its document type is completed by the
  shortest end a document type can have, which counts for no bytes.
* A reference is handed on if nothing is known of its entity and declarations
  may be missing, or if the text of the entity is not at hand.
-/
namespace PredictiveParsing.Xml

/-- Whether the characters of a document are in order up to the end of a text
between quotes; something has to follow that may stand behind such a text,
unless the document ends there. -/
def readsLiteral (e : Encoding) (cs : List Char) (isWhole : Bool) (p : Passage) : Bool :=
  let follows :=
    match cs.drop p.stop with
    | [] => isWhole
    | rest => Lexeme.isFollowed ['>', '%', '['] rest
  let front := (cs.take p.stop).map fun c => (c, e.sizeOf c)
  follows && (Assembly.ofChars? e (front ++ [('>', 0), (']', 0), ('>', 0)])).isSome

/-- Whether a reference to an entity is handed on as it is. -/
def Definitions.handsOn (d : Definitions) (name : String) : Bool :=
  match d.entities.lookup name with
  | none => d.isPartial
  | some .external => true
  | some _ => false

/-- Whether the characters of a document are in order up to a reference in an
element that is handed on as it is. -/
def handsOn (e : Encoding) (cs : List Char) (p : Passage) : Bool :=
  let front := (cs.take (p.stop - p.text.length)).map fun c => (c, e.sizeOf c)
  match Assembly.ofChars? e front with
  | some (d, .within _ _) => d.handsOn (.ofList p.text.tail.dropLast)
  | _ => false

/-- What is reported of the first piece that is taken for a reference, given the
passages of a document in order. -/
def breakageIn? (e : Encoding) (cs : List Char) (isWhole : Bool) :
    List Passage → Option BrokenCharacter
  | [] => none
  | p :: ps =>
    match p.reference?, p.isLiteral with
    | none, _ => breakageIn? e cs isWhole ps
    | some piece, true =>
      if readsLiteral e cs isWhole p then brokenCharacter? piece else none
    | some piece, false =>
      match brokenCharacter? piece with
      | some b => if handsOn e cs p then some b else breakageIn? e cs isWhole ps
      | none => breakageIn? e cs isWhole ps

/-- What is reported of a document, if it breaks a character. -/
def breakage? (document : String) : Option BrokenCharacter :=
  match Encoding.ofText document with
  | .utf8 => none
  | e =>
    let cs := e.charactersAtFront document
    breakageIn? e cs (e.charactersOf? document).isSome (Passage.ofChars cs)

end PredictiveParsing.Xml
