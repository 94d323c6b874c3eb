/-
The characters of a document.

A document arrives as the bytes of a text in UTF-8.  A document begins with an
ASCII character that is not null; so if its first or its second byte is null,
the bytes are meant as UTF-16 with the high or the low byte of each unit first,
unless the mark of UTF-8 stands in front of them.

* `ByteOrder`, `unitsOf` — the units of two bytes each;
* `charactersOfUnits` — the characters that units stand for;
* `Encoding`, `Encoding.ofText` — how a document is meant;
* `Encoding.charactersOf?` — the characters of a document;
* `Encoding.charactersAtFront` — the characters in front of whatever stands for
  none;
* `Encoding.ofText_of_plain` — a document that begins with two characters other
  than null is meant as UTF-8.

Design notes:

* The second half of a surrogate pair is not checked: any unit is taken for
  one.
-/
namespace PredictiveParsing.Xml

/-! ### UTF-16 -/

/-- Which byte of a unit comes first. -/
inductive ByteOrder where
  | highFirst
  | lowFirst
  deriving DecidableEq, Repr

/-- The unit that two bytes make up. -/
def ByteOrder.unit : ByteOrder → UInt8 → UInt8 → Nat
  | highFirst, a, b => 256 * a.toNat + b.toNat
  | lowFirst, a, b => 256 * b.toNat + a.toNat

/-- The units that bytes make up; a byte that is left over makes up none. -/
def unitsOf (order : ByteOrder) : List UInt8 → List Nat
  | a :: b :: rest => order.unit a b :: unitsOf order rest
  | _ => []

/-- Whether a unit is the first half of a surrogate pair. -/
def isLeading (u : Nat) : Bool :=
  0xD800 ≤ u && u ≤ 0xDBFF

/-- Whether a unit is the second half of a surrogate pair. -/
def isTrailing (u : Nat) : Bool :=
  0xDC00 ≤ u && u ≤ 0xDFFF

/-- The character that a surrogate pair stands for. -/
def paired (leading trailing : Nat) : Char :=
  .ofNat (0x10000 + 0x400 * (leading % 0x400) + trailing % 0x400)

/-- The characters that units stand for, up to a half of a surrogate pair that is
alone. -/
def charactersOfUnits : List Nat → List Char
  | [] => []
  | [u] => if isLeading u || isTrailing u then [] else [.ofNat u]
  | u :: v :: rest =>
    if isLeading u then paired u v :: charactersOfUnits rest
    else if isTrailing u then []
    else .ofNat u :: charactersOfUnits (v :: rest)

/-- The number of bytes of a character in UTF-16. -/
def wideSize (c : Char) : Nat :=
  if c.toNat < 0x10000 then 2 else 4

/-! ### Documents -/

/-- How the characters of a document are written. -/
inductive Encoding where
  | utf8
  | utf16 (order : ByteOrder)
  deriving DecidableEq, Repr

namespace Encoding

/-- How a document is meant. -/
def ofText (document : String) : Encoding :=
  match document.toList with
  | '\x00' :: _ => utf16 .highFirst
  | c :: '\x00' :: _ => if c.toNat < 0x80 then utf16 .lowFirst else utf8
  | _ => utf8

/-- The number of bytes of a character. -/
def sizeOf : Encoding → Char → Nat
  | utf8 => Char.utf8Size
  | utf16 _ => wideSize

/-- The characters of a document in front of whatever stands for none. -/
def charactersAtFront (document : String) : Encoding → List Char
  | utf8 => document.toList
  | utf16 order => charactersOfUnits (unitsOf order document.toUTF8.toList)

/-- The characters of a document; none if some of its bytes stand for none. -/
def charactersOf? (document : String) : Encoding → Option (List Char)
  | utf8 => some document.toList
  | utf16 order =>
    let cs := (utf16 order).charactersAtFront document
    let size := cs.foldl (fun n c => n + wideSize c) 0
    if size = document.utf8ByteSize then some cs else none

/-- A document that begins with two characters other than null is meant as
UTF-8. -/
theorem ofText_of_plain {document : String} {c d : Char} {cs : List Char}
    (h : document.toList = c :: d :: cs) (hc : c ≠ '\x00') (hd : d ≠ '\x00') :
    ofText document = utf8 := by
  unfold ofText
  rw [h]
  split
  · next he => exact absurd (List.cons.inj he).1 hc
  · next he => exact absurd (List.cons.inj (List.cons.inj he).2).1 hd
  · rfl

end Encoding

/-- The text without the mark that may stand at its very front. -/
def withoutMark : List Char → List Char
  | '\uFEFF' :: cs => cs
  | cs => cs

/-! ### Sizes -/

/-- A character with its size in bytes. -/
abbrev SizedChar := Char × Nat

/-- The characters with their sizes, a line end of two characters as one. -/
def withJoinedLineEnds : List SizedChar → List SizedChar
  | [] => []
  | ('\r', m) :: ('\n', n) :: cs => ('\n', m + n) :: withJoinedLineEnds cs
  | c :: cs => c :: withJoinedLineEnds cs

end PredictiveParsing.Xml
