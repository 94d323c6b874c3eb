import PredictiveParsing.Document
import PredictiveParsing.Xml.Breakage
import PredictiveParsing.Xml.Writing

/-
Grammar documents as XML files.

The root element is `grammar`.  In files of version 2.0 a rule has its two
sides in elements of their own; in all others it is one text with an arrow.
Files are always written in version 2.0.

* `Document.ofXml`, `Document.toXml` — reading and writing;
* `Document.ofElement`, `Document.toElement` — the same for the elements;
* `Grammar.load` — the grammar that a value or an XML text describes.

Design notes:

* Values, rules and symbols are looked for at any depth below the place where
  they belong, names and the start symbol only among the children of the root.
-/
namespace PredictiveParsing

open Xml

namespace Document

/-! ### Reading -/

/-- The trimmed text of an element, if it is there. -/
def textOf (e : Option Element) : String :=
  match e with
  | some e => Text.trim e.text
  | none => ""

/-- The trimmed text of the value of an element. -/
def valueText (e : Element) : String :=
  textOf (e.find? "value")

/-- The values of the elements with a tag; elements without a value are passed
over. -/
def valuesOf (root : Element) (tag : String) : List String :=
  ((root.withTag tag).filter fun e => (e.find? "value").isSome).map valueText

/-- A rule with elements for its two sides; symbols without a name are
dropped. -/
def ruleOfSides (number : Nat) (e : Element) : Except Fault Sides :=
  match e.find? "leftPart", e.find? "rightPart" with
  | some left, some right =>
    .ok ⟨valueText left, ((right.withTag "symbol").map valueText).filter (· ≠ "")⟩
  | _, _ => .error (.ruleWithoutSides number)

/-- A rule that is one text. -/
def ruleOfText (number : Nat) (e : Element) : Except Fault Sides :=
  match Sides.parse (valueText e) with
  | .ok sides => .ok sides
  | .error cause => .error (.unreadableRule number cause)

/-- Whether the rules of a file have elements for their sides. -/
def hasSides (root : Element) : Bool :=
  root.attribute? "version" == some "2.0"

/-- The rules of a file, counted from one. -/
def rulesOf (root : Element) : Except Fault (List Sides) :=
  let read := if hasSides root then ruleOfSides else ruleOfText
  (root.withTag "rule").zipIdx.mapM fun r => read (r.2 + 1) r.1

/-- The document that an element describes. -/
def ofElement (root : Element) : Except Fault Document :=
  if root.tag ≠ "grammar" then .error (.unexpectedRoot root.tag)
  else do
    let rules ← rulesOf root
    let start := textOf (root.find? "init-symbol")
    return {
      name := textOf (root.find? "name")
      description := textOf (root.find? "description")
      nonTerminals := valuesOf root "non-terminal"
      terminals := valuesOf root "terminal"
      start := if start = "" then none else some start
      rules }

/-- The document that an XML text describes. -/
def ofXml (text : String) : Except Fault Document :=
  match breakage? text with
  | some broken => .error (.brokenCharacter broken.bytes broken.position)
  | none =>
    match Element.read? text with
    | some root => ofElement root
    | none => .error .notWellFormed

/-! ### Writing -/

/-- An element with a value and nothing else. -/
def valueElement (tag value : String) : Element :=
  .branch tag [.leaf "value" value]

/-- The element of a rule. -/
def ruleElement (r : Sides) : Element :=
  .branch "rule"
    [valueElement "leftPart" r.antecedent,
      .branch "rightPart" (r.names.map (valueElement "symbol"))]

/-- The element of a document. -/
def toElement (d : Document) : Element :=
  .node "grammar" [("version", "2.0")] ""
    [.leaf "name" d.name, .leaf "description" d.description,
      .branch "non-terminal-symbols" (d.nonTerminals.map (valueElement "non-terminal")),
      .branch "terminal-symbols" (d.terminals.map (valueElement "terminal")),
      .leaf "init-symbol" (d.start.getD ""),
      .branch "rule-set" (d.rules.map ruleElement)]

/-- The XML text of a document. -/
def toXml (d : Document) : String :=
  d.toElement.writeDocument

end Document

/-! ### Loading -/

/-- The grammar that is described by an XML text or by the value of a
document. -/
def Grammar.load : Value → Except Fault Grammar
  | .text xml => (Document.ofXml xml).bind Document.toGrammar
  | v => (Document.ofValue v).bind Document.toGrammar

end PredictiveParsing
