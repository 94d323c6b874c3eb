import PredictiveParsing.Xml.Element

/-
Writing elements.

Each child stands on a line of its own, one tab further in than its parent;
an element without children and text is a single tag.

* `escaped` — a text as it is written between tags;
* `Element.write` — an element, written at some depth;
* `Element.writeDocument` — a whole document.

Design notes:

* The text of an element that has children is nothing but layout, so it is not
  written.
-/
namespace PredictiveParsing.Xml

/-- What stands for a character between tags. -/
def escapedChar (c : Char) : List Char :=
  if c = '&' then "&amp;".toList
  else if c = '<' then "&lt;".toList
  else if c = '>' then "&gt;".toList
  else [c]

/-- A text as it is written between tags. -/
def escaped (s : String) : List Char :=
  s.toList.flatMap escapedChar

/-- What stands for a character between the quotes of an attribute. -/
def escapedInQuotes (c : Char) : List Char :=
  if c = '"' then "&quot;".toList else escapedChar c

/-- An attribute as it is written behind the name of a tag. -/
def writtenAttribute (a : String × String) : List Char :=
  ' ' :: a.1.toList ++ '=' :: '"' :: a.2.toList.flatMap escapedInQuotes ++ ['"']

/-- The inside of a tag. -/
def writtenTag (tag : String) (attributes : List (String × String)) : List Char :=
  tag.toList ++ attributes.flatMap writtenAttribute

/-- A new line with so many tabs. -/
def newLine (depth : Nat) : List Char :=
  '\n' :: List.replicate depth '\t'

/-- The tag that ends an element. -/
def writtenEnd (tag : String) : List Char :=
  '<' :: '/' :: tag.toList ++ ['>']

namespace Element

mutual

/-- An element, written at some depth. -/
def write (depth : Nat) : Element → List Char
  | node t as s cs =>
    let begin' := '<' :: writtenTag t as
    if cs.isEmpty then
      if s = "" then begin' ++ [' ', '/', '>']
      else begin' ++ '>' :: escaped s ++ writtenEnd t
    else begin' ++ '>' :: writeForest (depth + 1) cs ++ newLine depth ++ writtenEnd t

/-- Elements, each on a line of its own. -/
def writeForest (depth : Nat) : List Element → List Char
  | [] => []
  | c :: cs => newLine depth ++ write depth c ++ writeForest depth cs

end

/-- A document: the declaration, the element, and the end of the last line. -/
def writeDocument (e : Element) : String :=
  "<?xml version=\"1.0\" encoding=\"UTF-8\"?>\n" ++ .ofList (e.write 0) ++ "\n"

end Element

end PredictiveParsing.Xml
