import PredictiveParsing.Xml.Name

/-
Namespaces.

A tag may declare namespaces: one for names without a prefix, and others for
prefixes.  A declaration counts for the tag itself and for everything inside
its element, until an inner one replaces it.

* `Scope` — the declarations in force;
* `Scope.enter?` — the scope of a tag, inside a given one;
* `Scope.tagName?`, `Scope.attributes?` — names resolved, as `{uri}name`.

Design notes:

* The prefix `xml` is always declared.  It and the prefix `xmlns` cannot be
  given away, nor can other names be declared for their namespaces.
* Names without a prefix are in the unprefixed namespace if they are tags, and
  in none if they are attributes.
-/
namespace PredictiveParsing.Xml

/-- Prefixes with their namespaces, the innermost declaration first; the empty
prefix stands for names without one. -/
abbrev Scope := List (String × String)

namespace Scope

/-- The namespace of the prefix `xml`. -/
def xmlUri : String := "http://www.w3.org/XML/1998/namespace"

/-- The namespace of declarations themselves. -/
def xmlnsUri : String := "http://www.w3.org/2000/xmlns/"

/-- The scope of a document. -/
def outermost : Scope := [("xml", xmlUri)]

/-- The prefix that an attribute declares, if its name is that of a
declaration. -/
def declares? (name : QualifiedName) : Option String :=
  if name.space = some "xmlns" then some name.localPart
  else if name = ⟨none, "xmlns"⟩ then some ""
  else none

/-- Whether a namespace may be declared for a prefix. -/
def mayDeclare (prefix' uri : String) : Bool :=
  prefix' ≠ "xmlns" && (prefix' = "xml" ↔ uri = xmlUri) && uri ≠ xmlnsUri &&
    !(uri = "" && prefix' ≠ "") && !uri.toList.contains '\x7d'

/-- The scope after one attribute. -/
def declare? (scope : Scope) (a : QualifiedName × String) : Option Scope :=
  match declares? a.1 with
  | none => some scope
  | some p => if mayDeclare p a.2 then some ((p, a.2) :: scope) else none

/-- The scope of a tag inside another scope. -/
def enter? (scope : Scope) (attributes : List (QualifiedName × String)) : Option Scope :=
  attributes.foldlM declare? scope

/-- A local name in a namespace; the empty namespace is none. -/
def expanded (uri localPart : String) : String :=
  if uri = "" then localPart else "\x7b" ++ uri ++ "\x7d" ++ localPart

/-- The name of a tag, resolved. -/
def tagName? (scope : Scope) (n : QualifiedName) : Option String :=
  match n.space with
  | some p => (scope.lookup p).map fun uri => expanded uri n.localPart
  | none => some (expanded ((scope.lookup "").getD "") n.localPart)

/-- The name of an attribute, resolved. -/
def attributeName? (scope : Scope) (n : QualifiedName) : Option String :=
  match n.space with
  | some p => (scope.lookup p).map fun uri => expanded uri n.localPart
  | none => some n.localPart

/-- The attributes of a tag other than declarations, with their names resolved;
none if a name occurs twice. -/
def attributes? (scope : Scope) (attributes : List (QualifiedName × String)) :
    Option (List (String × String)) := do
  guard (attributes.map (·.1)).Nodup
  let plain := attributes.filter fun a => (declares? a.1).isNone
  let resolved ← plain.mapM fun a => (scope.attributeName? a.1).map fun n => (n, a.2)
  guard (resolved.map (·.1)).Nodup
  return resolved

end Scope

end PredictiveParsing.Xml
