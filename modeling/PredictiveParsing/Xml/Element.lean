/-
Elements of XML documents.

An element has a tag, attributes, the text in front of its first child, and
children.  Text behind a child is not kept.

* `Element` — the trees;
* `Element.find?` — the first child with a tag;
* `Element.withTag` — all elements of a tree with a tag, in document order;
* `Element.attribute?` — the value of an attribute.
-/
namespace PredictiveParsing.Xml

/-- An element; tags and attribute names in a namespace are `{uri}name`. -/
inductive Element where
  | node (tag : String) (attributes : List (String × String)) (text : String)
      (children : List Element)
  deriving Repr, Inhabited

namespace Element

def tag : Element → String
  | node t _ _ _ => t

def attributes : Element → List (String × String)
  | node _ as _ _ => as

def text : Element → String
  | node _ _ s _ => s

def children : Element → List Element
  | node _ _ _ cs => cs

/-- An element with nothing but a text. -/
def leaf (tag text : String) : Element :=
  node tag [] text []

/-- An element with nothing but children. -/
def branch (tag : String) (children : List Element) : Element :=
  node tag [] "" children

/-- The value of an attribute. -/
def attribute? (e : Element) (name : String) : Option String :=
  e.attributes.lookup name

/-- The first child with a tag. -/
def find? (e : Element) (tag : String) : Option Element :=
  e.children.find? fun c => c.tag == tag

mutual

/-- The elements with a tag, in document order. -/
def withTag (tag : String) : Element → List Element
  | node t as s cs =>
    let below := forestWithTag tag cs
    if t = tag then node t as s cs :: below else below

/-- The elements with a tag in a list of trees, in document order. -/
def forestWithTag (tag : String) : List Element → List Element
  | [] => []
  | c :: cs => withTag tag c ++ forestWithTag tag cs

end

end Element

end PredictiveParsing.Xml
