import PredictiveParsing.Xml.Doctype
import PredictiveParsing.Xml.Tag

/-
What the declarations of a document define.

Entities are texts that references stand for.  Attributes may have values by
default, and values in which spaces are all alike.  Of several declarations of
one thing the first counts.

* `Definitions` — entities and rules for attributes;
* `Definitions.ofDoctype?` — the definitions in a document type;
* `Definitions.value?` — the value that an attribute has;
* `Definitions.attributes?` — the attributes that a tag has, with those it leaves
  out;
* `declareEntity_of_known` — the first declaration of an entity counts.

Design notes:

* Declarations may be missing when something external is named or referred
  to, unless the document says that it stands alone.  Then an unknown entity
  is passed over in a value; everywhere else it is an error.
* Behind a reference to declarations elsewhere, in a document that does not
  stand alone, declarations count for nothing: what they mean is not known.
* Entities may refer to others but not to themselves, so they nest at most as
  deep as there are entities.
-/
namespace PredictiveParsing.Xml

/-- What declarations define. -/
structure Definitions where
  /-- Entities with their texts. -/
  entities : List (String × EntityText) := []
  /-- Rules for attributes with the names of their elements and, if there is
  one, the value by default. -/
  rules : List (QualifiedName × AttributeRule × Option String) := []
  /-- Whether there may be more declarations elsewhere. -/
  isPartial : Bool := false
  /-- Whether declarations count for nothing from here on. -/
  isClosed : Bool := false
  deriving Repr

namespace Definitions

/-! ### Values -/

/-- The characters of a piece, given those of each entity. -/
def charsOf? (text? : String → Option (List Char)) : Reference → Option (List Char)
  | .char c => some [c]
  | .entity name => text? name

/-- The characters of all pieces, given those of each entity. -/
def replaced? (text? : String → Option (List Char)) (pieces : List Reference) :
    Option (List Char) :=
  (pieces.mapM (charsOf? text?)).map List.flatten

/-- The characters that an entity stands for in a value, with at most `depth`
others nested in it.  Texts of entities are in UTF-8. -/
def textInValue? (d : Definitions) : (depth : Nat) → (name : String) → Option (List Char)
  | depth, name =>
    match d.entities.lookup name, depth with
    | none, _ => if d.isPartial then some [] else none
    | some (.known cs), depth + 1 =>
      (Attribute.pieces? .utf8 cs).bind (replaced? (textInValue? d depth))
    | some _, _ => none

/-- Words with single spaces between them, however many there were. -/
def withSingleSpaces (cs : List Char) : List Char :=
  [' '].intercalate ((Text.pieces ' ' cs).filter (· ≠ []))

/-- The value of an attribute. -/
def value? (d : Definitions) (isTokenized : Bool) (pieces : List Reference) : Option String :=
  (replaced? (d.textInValue? d.entities.length) pieces).map fun cs =>
    .ofList (if isTokenized then withSingleSpaces cs else cs)

/-- The text of an entity where elements are. -/
def text? (d : Definitions) (name : String) : Option (List Char) :=
  (d.entities.lookup name).bind EntityText.known?

/-! ### Attributes -/

/-- The rules for the attributes of an element. -/
def rulesOf (d : Definitions) (element : QualifiedName) : List (AttributeRule × Option String) :=
  (d.rules.filter fun r => r.1 = element).map (·.2)

/-- Whether the values of an attribute are words. -/
def isTokenized (rules : List (AttributeRule × Option String)) (name : QualifiedName) : Bool :=
  ((rules.find? fun r => r.1.name = name).map (·.1.isTokenized)).getD false

/-- The attributes that a tag has: those it shows, and those it leaves out that
have a value by default. -/
def attributes? (d : Definitions) (t : Tag) : Option (List (QualifiedName × String)) := do
  let rules := d.rulesOf t.name
  let shown ← t.attributes.mapM fun a =>
    (d.value? (isTokenized rules a.name) a.value).map fun v => (a.name, v)
  let others := rules.filterMap fun r =>
    if (shown.lookup r.1.name).isSome then none else r.2.map fun v => (r.1.name, v)
  return shown ++ others

/-! ### Declarations -/

/-- One piece of the text of an entity as it is written: a character, or a
reference to an entity, which stays as it is. -/
def nextPiece (e : Encoding) : List Char → Option (Option (List Char) × List Char)
  | [] => some (none, [])
  | '%' :: _ => none
  | '&' :: cs =>
    (Reference.read? e cs).map fun r =>
      match r.1 with
      | .char c => (some [c], r.2)
      | .entity name => (some ('&' :: name.toList ++ [';']), r.2)
  | c :: cs => some (some [c], cs)

/-- Reads the text of an entity piece by piece. -/
def pieceReader (e : Encoding) : Reader Char (List Char) where
  next := nextPiece e
  shorter := by
    intro cs a rest h
    unfold nextPiece at h
    split at h
    · simp at h
    · simp at h
    · next cs₁ =>
      obtain ⟨⟨r, rest₁⟩, hr, he⟩ := Option.map_eq_some_iff.1 h
      have h₁ := Reference.length_of_read? hr
      obtain rfl : rest₁ = rest := by
        cases r <;> exact (Prod.mk.inj he).2
      simp only [List.length_cons]
      omega
    · obtain ⟨-, rfl⟩ := Prod.mk.inj (Option.some.inj h)
      simp

/-- The text of an entity, given as it is written. -/
def entityText? (e : Encoding) (literal : List Char) : Option (List Char) :=
  ((pieceReader e).all? literal).map fun r => r.1.flatten

/-- The definitions with one more entity; one that is known already stays, and
the predefined ones are always known. -/
def declareEntity (d : Definitions) (name : String) (text : EntityText) : Definitions :=
  if (Reference.predefined.lookup name).isSome || (d.entities.lookup name).isSome then d
  else { d with entities := d.entities ++ [(name, text)] }

/-- The first declaration of an entity counts. -/
theorem declareEntity_of_known {d : Definitions} {name : String} {known : EntityText}
    (h : d.entities.lookup name = some known) (text : EntityText) :
    d.declareEntity name text = d := by
  simp [declareEntity, h]

/-- The definitions with one more rule for an attribute of an element; a rule
that is known already stays. -/
def addRule (d : Definitions) (element : QualifiedName) (r : AttributeRule)
    (value : Option String) : Definitions :=
  if (d.rulesOf element).any fun known => known.1.name = r.name then d
  else { d with rules := d.rules ++ [(element, r, value)] }

/-- The definitions with one more rule as it is declared.  The value by default
is made with the entities declared so far. -/
def declareRule? (e : Encoding) (element : QualifiedName) (d : Definitions) (r : AttributeRule) :
    Option Definitions :=
  match r.default with
  | none => some (d.addRule element r none)
  | some literal => do
    let pieces ← Attribute.pieces? e literal
    let value ← d.value? r.isTokenized pieces
    return d.addRule element r (some value)

/-- The definitions after a declaration. -/
def declare? (e : Encoding) (d : Definitions) : Declaration → Option Definitions
  | .entity name (.known literal) =>
    (entityText? e literal).map fun cs => d.declareEntity name (.known cs)
  | .entity name text => some (d.declareEntity name text)
  | .parameterEntity (some literal) => (entityText? e literal).map fun _ => d
  | .attributes element rules => rules.foldlM (declareRule? e element) d
  | _ => some d

/-- The definitions after one more item of a document type. -/
def take? (e : Encoding) (standsAlone : Bool) (d : Definitions) : SubsetItem → Option Definitions
  | .remark => some d
  | .reference => some (if standsAlone then d else { d with isPartial := true, isClosed := true })
  | .declaration x => if d.isClosed then some d else d.declare? e x

/-- The definitions at the beginning of a document type. -/
def atStart (standsAlone : Bool) (t : Doctype) : Definitions :=
  { isPartial := t.isExternal && !standsAlone }

/-- The definitions in a document type, and nothing without one. -/
def ofDoctype? (e : Encoding) (standsAlone : Bool) : Option Doctype → Option Definitions
  | none => some {}
  | some t => t.items.foldlM (take? e standsAlone) (atStart standsAlone t)

end Definitions

end PredictiveParsing.Xml
