import PredictiveParsing.Text.Cut
import PredictiveParsing.Xml.Encoding
import PredictiveParsing.Xml.Name

/-
Texts as they are written, character by character.

A text is read in portions: tags, comments, references, runs of other
characters.  Each portion is charged for by its size in bytes as it is written.
What a reference stands for is charged for besides; how much that is depends
on the document and is left open here.

* `Charge` — what is charged for;
* `Passage` — a text between quotes, or a reference;
* `Scan` — the charges and passages of what has been read of a text;
* `Scan.step` — reads one more character;
* `Scan.ofDocument`, `Scan.ofEntity` — whole texts;
* `Scan.valueCharges` — the charges for the value of an attribute.

Design notes:

* The values in a tag are charged for with the tag.  If the tag begins an
  element, those that do not stay as they are written are charged for once
  more by themselves.
* A text is taken to be well-formed here.  Reading it this way only finds out
  where its portions end.
-/
namespace PredictiveParsing.Xml

/-- What is charged for. -/
inductive Charge where
  /-- A portion, by its size. -/
  | portion (size : Nat)
  /-- What a reference stands for. -/
  | entity (name : String)
  /-- What the references in a value by default stand for. -/
  | default
  deriving DecidableEq, Repr, Inhabited

/-- The entity that is charged for, if it is one. -/
def Charge.entity? : Charge → Option String
  | entity name => some name
  | _ => none

/-- Where the next character of a text stands. -/
inductive Place where
  /-- Outside of elements or in a declaration, where nothing has begun. -/
  | between
  /-- In spaces there. -/
  | spaces
  /-- In a word there. -/
  | word
  /-- In a text between quotes there; its characters, the latest first. -/
  | literal (quote : Char) (cs : List Char)
  /-- In the text of an element. -/
  | text
  /-- In a reference; the characters of its name, the latest first. -/
  | reference (name : List Char)
  /-- Behind an angle bracket. -/
  | bracket
  /-- Behind an angle bracket and an exclamation mark. -/
  | mark
  /-- In a comment, behind so many hyphens. -/
  | comment (hyphens : Nat)
  /-- In an instruction, perhaps behind a question mark. -/
  | instruction (isLast : Bool)
  /-- In the opening mark of a marked section. -/
  | opening
  /-- In a marked section, behind so many square brackets that may belong to its
  end. -/
  | marked (brackets : Nat)
  /-- In a tag that ends an element. -/
  | closing
  /-- In another tag, behind some character; its values, the latest first. -/
  | tag (latest : Char) (values : List (List SizedChar))
  /-- In a value of such a tag; its characters, the latest first. -/
  | value (quote : Char) (cs : List SizedChar) (values : List (List SizedChar))
  deriving DecidableEq, Repr, Inhabited

/-- A text between quotes in a declaration, or a reference in the text of an
element. -/
structure Passage where
  /-- Its characters, with the quotes or with ampersand and semicolon. -/
  text : List Char
  /-- How many characters have been read with it. -/
  stop : Nat
  deriving DecidableEq, Repr, Inhabited

/-- What is found out about what has been read of a text. -/
structure Scan where
  place : Place
  /-- How many elements are open. -/
  depth : Nat
  /-- The letter with which the declaration at hand begins. -/
  subject : Char := ' '
  /-- The size of the portion at hand. -/
  size : Nat := 0
  /-- The charges for the portions before it, the latest first. -/
  charges : List Charge := []
  /-- How many characters have been read. -/
  read : Nat := 0
  /-- The passages among them, the latest first. -/
  passages : List Passage := []
  deriving Repr, Inhabited

namespace Scan

/-! ### Portions -/

/-- One more charge. -/
def charge (s : Scan) (c : Charge) : Scan :=
  { s with charges := c :: s.charges }

/-- The portion at hand is charged for. -/
def settle (s : Scan) : Scan :=
  if s.size = 0 then s else { s with size := 0, charges := .portion s.size :: s.charges }

/-- The portion at hand goes on with a character. -/
def goOn (s : Scan) (place : Place) (c : SizedChar) : Scan :=
  { s with place, size := s.size + c.2, read := s.read + 1 }

/-- A character begins a portion. -/
def start (s : Scan) (place : Place) (c : SizedChar) : Scan :=
  s.settle.goOn place c

/-- A character ends the portion at hand. -/
def finish (s : Scan) (place : Place) (c : SizedChar) : Scan :=
  (s.goOn place c).settle

/-- A character is a portion by itself. -/
def single (s : Scan) (place : Place) (c : SizedChar) : Scan :=
  s.settle.finish place c

/-- A passage ends here. -/
def keep (s : Scan) (text : List Char) : Scan :=
  { s with passages := ⟨text, s.read⟩ :: s.passages }

/-- The place behind complete markup. -/
def outer (s : Scan) : Place :=
  if s.depth = 0 then .between else .text

/-- All charges in their order. -/
def all (s : Scan) : List Charge :=
  s.settle.charges.reverse

/-! ### Text and values -/

/-- Reads one more character of a text with references, in which some characters
are portions by themselves. -/
def textStep (isSingle : Char → Bool) (s : Scan) (c : SizedChar) : Scan :=
  match s.place with
  | .reference name =>
    if c.1 = ';' then
      let s := (s.finish .text c).charge (.entity (.ofList name.reverse))
      s.keep ('&' :: name.reverse ++ [';'])
    else s.goOn (.reference (c.1 :: name)) c
  | _ =>
    if c.1 = '&' then s.start (.reference []) c
    else if isSingle c.1 then s.single .text c
    else s.goOn .text c

/-- The charges for a value by itself; nothing is charged for a line end that is a
carriage return and the end of the value too. -/
def valueCharges (value : List SizedChar) : List Charge :=
  let value := if value.getLast?.any (·.1 = '\r') then value.dropLast else value
  (value.foldl (textStep isSpace) { place := .text, depth := 0 }).all

/-- Whether a value stays as it is written: it has neither references nor spaces
other than blanks, and no blank stands at an end or next to another. -/
def isPlain (value : List Char) : Bool :=
  !value.any (fun c => c = '&' || (isSpace c && c ≠ ' ')) &&
    (value.isEmpty || (Text.pieces ' ' value).all (· ≠ []))

/-- The charges for the values of a tag; only the references in them count if
the tag is an element by itself. -/
def tagCharges (isLone : Bool) (values : List (List SizedChar)) : List Charge :=
  let charges := (values.filter fun v => !isPlain (v.map (·.1))).flatMap valueCharges
  if isLone then charges.filter fun
    | .portion _ => false
    | _ => true
  else charges

/-! ### Markup -/

/-- Reads one more character outside of elements or in a declaration. -/
def outerStep (s : Scan) (c : SizedChar) : Scan :=
  if isSpace c.1 then
    if s.place = .spaces then s.goOn .spaces c else s.start .spaces c
  else if ['>', '[', ']', '(', '|', ','].contains c.1 then s.single .between c
  else
    match c.1 with
    | '<' => s.start .bracket c
    | '"' => s.start (.literal '"' []) c
    | '\'' => s.start (.literal '\'' []) c
    | ')' => s.start .word c
    | ';' => s.finish .between c
    | _ => if s.place = .word then s.goOn .word c else s.start .word c

/-- Reads the quote that ends a text between quotes.  In a declaration that gives
rules for attributes, this is a value by default; the identifiers of a document
type are no passages. -/
def endLiteral (s : Scan) (cs : List Char) (c : SizedChar) : Scan :=
  let s := s.finish .between c
  match s.subject with
  | 'D' => s
  | 'A' => (s.charge .default).keep (c.1 :: cs.reverse ++ [c.1])
  | _ => s.keep (c.1 :: cs.reverse ++ [c.1])

/-- Reads the bracket that ends a tag. -/
def endTag (s : Scan) (isLone : Bool) (values : List (List SizedChar)) (c : SizedChar) : Scan :=
  let s := if isLone then s else { s with depth := s.depth + 1 }
  (tagCharges isLone values.reverse).foldl charge (s.finish s.outer c)

/-- Reads one more character of a tag, outside of values. -/
def tagStep (s : Scan) (latest : Char) (values : List (List SizedChar)) (c : SizedChar) : Scan :=
  match c.1 with
  | '"' => s.goOn (.value '"' [] values) c
  | '\'' => s.goOn (.value '\'' [] values) c
  | '>' => s.endTag (latest = '/') values c
  | c' => s.goOn (.tag c' values) c

/-- The first of two square brackets is a portion by itself, because they do not
belong to the end of the section. -/
def parted (s : Scan) (brackets : Nat) : Scan :=
  if brackets = 2 then { s with size := s.size / 2, charges := .portion (s.size / 2) :: s.charges }
  else s

/-- Reads one more character of a marked section.  A line end is a portion by
itself, and a square bracket begins one. -/
def markedStep (s : Scan) (brackets : Nat) (c : SizedChar) : Scan :=
  match c.1, brackets with
  | ']', 0 => s.start (.marked 1) c
  | ']', _ => (s.parted brackets).goOn (.marked 2) c
  | '>', 2 => s.finish s.outer c
  | '\n', _ => (s.parted brackets).single (.marked 0) c
  | '\r', _ => (s.parted brackets).single (.marked 0) c
  | _, _ => (s.parted brackets).goOn (.marked 0) c

/-- Reads one more character. -/
def step (s : Scan) (c : SizedChar) : Scan :=
  match s.place with
  | .between => s.outerStep c
  | .spaces => s.outerStep c
  | .word => s.outerStep c
  | .literal quote cs =>
    if c.1 = quote then s.endLiteral cs c else s.goOn (.literal quote (c.1 :: cs)) c
  | .text => if c.1 = '<' then s.start .bracket c else s.textStep (fun c => c = '\n' || c = '\r') c
  | .reference _ => s.textStep (fun _ => false) c
  | .bracket =>
    match c.1 with
    | '!' => s.goOn .mark c
    | '?' => s.goOn (.instruction false) c
    | '/' => s.goOn .closing c
    | c' => s.goOn (.tag c' []) c
  | .mark =>
    match c.1 with
    | '-' => s.goOn (.comment 1) c
    | '[' => s.goOn .opening c
    | c' => { s.goOn .word c with subject := c' }
  | .comment hyphens =>
    if c.1 = '>' ∧ 2 ≤ hyphens then s.finish s.outer c
    else s.goOn (.comment (if c.1 = '-' then hyphens + 1 else 0)) c
  | .instruction isLast =>
    if c.1 = '>' ∧ isLast then s.finish s.outer c else s.goOn (.instruction (c.1 = '?')) c
  | .opening => if c.1 = '[' then s.finish (.marked 0) c else s.goOn .opening c
  | .marked brackets => s.markedStep brackets c
  | .closing =>
    if c.1 = '>' then
      let s := { s with depth := s.depth - 1 }
      s.finish s.outer c
    else s.goOn .closing c
  | .tag latest values => s.tagStep latest values c
  | .value quote cs values =>
    if c.1 = quote then s.goOn (.tag quote (cs.reverse :: values)) c
    else s.goOn (.value quote (c :: cs) values) c

end Scan

/-! ### Whole texts -/

/-- Everything in a document.  A carriage return at its very end might have been
half of a line end and is a portion by itself. -/
def Scan.ofDocument (cs : List SizedChar) : Scan :=
  let start : Scan := { place := .between, depth := 0 }
  match cs.getLast? with
  | some ('\r', n) => (cs.dropLast.foldl step start).settle.step ('\r', n)
  | _ => cs.foldl step start

/-- Everything in the text of an entity, which stands inside an element or inside
a value.  A carriage return in it is no line end but a space like a tab. -/
def Scan.ofEntity (cs : List Char) : Scan :=
  (cs.map fun c => (if c = '\r' then '\t' else c, c.utf8Size)).foldl step
    { place := .text, depth := 1 }

/-- The charges for the text of an entity. -/
def entityCharges (cs : List Char) : List Charge :=
  (Scan.ofEntity cs).all

end PredictiveParsing.Xml
