import PredictiveParsing.Xml.Scan

/-
Long passages of documents in UTF-16.

The passages of such a document, texts between quotes and references, are handed
on in UTF-8, in pieces of 1024 bytes.  A piece that begins with an ampersand is
taken for a reference: its first and its last byte are taken off, and what is
left should be a name.  If the last byte was only a part of a character, the
name is broken.

* `Passage.split` — the pieces of a text;
* `Passage.reference?` — the first piece that is taken for a reference;
* `BrokenCharacter`, `brokenCharacter?` — what is left of a character in the
  name;
* `hasWholeLiterals` — whether no piece of a text between quotes is taken for a
  reference.

Design notes:

* A character is never divided between pieces, so a piece may be up to three
  bytes short.
* Documents in UTF-8 are handed on as they are.
-/
namespace PredictiveParsing.Xml

namespace Passage

/-- How many bytes a piece has room for. -/
def roomOfPiece : Nat := 1024

/-- The pieces of a text, the first of which has so much room. -/
def split (room : Nat) : List Char → List (List Char)
  | [] => [[]]
  | c :: cs =>
    if c.utf8Size ≤ room then
      match split (room - c.utf8Size) cs with
      | p :: ps => (c :: p) :: ps
      | [] => [[c]]
    else
      match split (roomOfPiece - c.utf8Size) cs with
      | p :: ps => [] :: (c :: p) :: ps
      | [] => [[], [c]]

/-- The first piece that is taken for a reference. -/
def reference? (p : Passage) : Option (List Char) :=
  (split roomOfPiece p.text).find? fun piece => piece.head? = some '&'

/-- Whether it is a text between quotes. -/
def isLiteral (p : Passage) : Bool :=
  p.text.head? ≠ some '&'

/-- The passages of a text. -/
def ofChars (cs : List Char) : List Passage :=
  (Scan.ofDocument (cs.map fun c => (c, 1))).passages.reverse

end Passage

/-- What is left of a character at the end of a name. -/
structure BrokenCharacter where
  bytes : List UInt8
  /-- Where in the name they stand. -/
  position : Nat
  deriving DecidableEq, Repr

/-- What is left of the last character of a piece that is taken for a reference,
if it had more than one byte. -/
def brokenCharacter? (piece : List Char) : Option BrokenCharacter :=
  piece.getLast?.bind fun c =>
    let bytes := (String.utf8EncodeChar c).dropLast
    let size := (String.ofList piece).utf8ByteSize
    if bytes = [] then none else some ⟨bytes, size - 2 - bytes.length⟩

/-- Whether no piece of a text between quotes is taken for a reference, given the
characters of a document. -/
def hasWholeLiterals (cs : List Char) : Encoding → Bool
  | .utf8 => true
  | .utf16 _ => (Passage.ofChars cs).all fun p => !p.isLiteral || p.reference?.isNone

end PredictiveParsing.Xml
