import PredictiveParsing.Xml.Lexeme

/-
Declarations inside a document type.

* `Declaration` — what is declared, as far as it matters to the elements of the
  document;
* `EntityText` — what is known of an entity;
* `AttributeRule` — what is declared about one attribute;
* `Declaration.ofLexemes?` — the declaration that lexemes write.

Design notes:

* The content of elements and the notations are checked for their form and
  then forgotten.
* Something external is named by an identifier.  Its text is not at hand.
-/
namespace PredictiveParsing.Xml

/-- What is declared about an attribute of an element. -/
structure AttributeRule where
  name : QualifiedName
  /-- Whether its values are words, between which spaces are all alike. -/
  isTokenized : Bool
  /-- How the value is written that it has where it is left out. -/
  default : Option (List Char)
  deriving DecidableEq, Repr, Inhabited

/-- What is known of an entity. -/
inductive EntityText where
  /-- Its text. -/
  | known (cs : List Char)
  /-- Its text is somewhere else. -/
  | external
  /-- It is somewhere else, and it is not even text. -/
  | unparsed
  deriving DecidableEq, Repr, Inhabited

/-- The text, if it is at hand. -/
def EntityText.known? : EntityText → Option (List Char)
  | known cs => some cs
  | _ => none

/-- What is declared. -/
inductive Declaration where
  /-- An entity for use in the document; its text is as it is written. -/
  | entity (name : String) (text : EntityText)
  /-- An entity for use in declarations only. -/
  | parameterEntity (literal : Option (List Char))
  | attributes (element : QualifiedName) (rules : List AttributeRule)
  /-- The content of an element, or a notation. -/
  | other
  deriving DecidableEq, Repr, Inhabited

namespace Declaration

/-! ### Entities and notations -/

/-- The characters of a public identifier. -/
def isPublicIdChar (c : Char) : Bool :=
  c.isAlphanum || c = '\n' || c = '\r' || " -'()+,./:=?;!*#@$_%".toList.contains c

/-- The lexemes behind the identifier of something external. -/
def afterExternal? : List Lexeme → Option (List Lexeme)
  | .plain "SYSTEM" :: .literal _ :: ls => some ls
  | .plain "PUBLIC" :: .literal publicId :: .literal _ :: ls =>
    if publicId.all isPublicIdChar then some ls else none
  | _ => none

/-- An entity.  One that is not even text names the notation it is in. -/
def ofEntity? : List Lexeme → Option Declaration
  | [.plain name, .literal cs] => some (entity name (.known cs))
  | .plain name :: ls =>
    match afterExternal? ls with
    | some [] => some (entity name .external)
    | some [.plain "NDATA", .plain _] => some (entity name .unparsed)
    | _ => none
  | [.percent, .plain _, .literal cs] => some (parameterEntity (some cs))
  | .percent :: .plain _ :: ls =>
    if afterExternal? ls = some [] then some (parameterEntity none) else none
  | _ => none

/-- A notation, for which a public identifier is enough. -/
def ofNotation? : List Lexeme → Option Declaration
  | [.plain _, .plain "PUBLIC", .literal publicId] =>
    if publicId.all isPublicIdChar then some other else none
  | .plain _ :: ls => if afterExternal? ls = some [] then some other else none
  | _ => none

/-! ### Attributes -/

/-- Whether a lexeme may be one of the values of an attribute; those that are
notations are plain names. -/
def isChoice (areNotations : Bool) : Lexeme → Bool
  | .plain _ => true
  | .name _ none => !areNotations
  | .word => !areNotations
  | _ => false

/-- The lexemes behind values to choose from, between which there are bars. -/
def afterChoices? (areNotations : Bool) : List Lexeme → Option (List Lexeme)
  | l :: .bar :: ls => if isChoice areNotations l then afterChoices? areNotations ls else none
  | l :: .closing none :: ls => if isChoice areNotations l then some ls else none
  | _ => none

/-- The types of attributes whose values are words. -/
def tokenizedTypes : List String :=
  ["ID", "IDREF", "IDREFS", "ENTITY", "ENTITIES", "NMTOKEN", "NMTOKENS"]

/-- Whether the values of a type are words, and the lexemes behind the type. -/
def readType? : List Lexeme → Option (Bool × List Lexeme)
  | .plain "CDATA" :: ls => some (false, ls)
  | .plain "NOTATION" :: .opening :: ls => (afterChoices? true ls).map fun ls => (true, ls)
  | .plain type :: ls => if tokenizedTypes.contains type then some (true, ls) else none
  | .opening :: ls => (afterChoices? false ls).map fun ls => (true, ls)
  | _ => none

/-- How the value is written that an attribute has by default, if it has one,
and the lexemes behind. -/
def readDefault? : List Lexeme → Option (Option (List Char) × List Lexeme)
  | .keyword "IMPLIED" :: ls => some (none, ls)
  | .keyword "REQUIRED" :: ls => some (none, ls)
  | .keyword "FIXED" :: .literal cs :: ls => some (some cs, ls)
  | .literal cs :: ls => some (some cs, ls)
  | _ => none

/-- The next rule for an attribute, if there is one more. -/
def nextRule : List Lexeme → Option (Option AttributeRule × List Lexeme)
  | [] => some (none, [])
  | .name n none :: ls =>
    match readType? ls with
    | none => none
    | some (isTokenized, ls) =>
      (readDefault? ls).map fun r => (some ⟨n, isTokenized, r.1⟩, r.2)
  | _ => none

theorem length_of_afterChoices? {areNotations : Bool} {ls rest : List Lexeme}
    (h : afterChoices? areNotations ls = some rest) : rest.length ≤ ls.length := by
  induction ls using afterChoices?.induct areNotations with
  | case1 l ls hc ih =>
    rw [afterChoices?, if_pos hc] at h
    have := ih h
    simp only [List.length_cons]
    omega
  | case2 l ls hc => rw [afterChoices?, if_neg hc] at h; simp at h
  | case3 l ls hc =>
    rw [afterChoices?, if_pos hc] at h
    obtain rfl := Option.some.inj h
    simp only [List.length_cons]
    omega
  | case4 l ls hc => rw [afterChoices?, if_neg hc] at h; simp at h
  | case5 ls => simp [afterChoices?] at h

theorem length_of_readType? {b : Bool} {ls rest : List Lexeme}
    (h : readType? ls = some (b, rest)) : rest.length ≤ ls.length := by
  unfold readType? at h
  split at h
  · obtain rfl := (Prod.mk.inj (Option.some.inj h)).2; simp
  · next ls₁ =>
    obtain ⟨ls₂, hc, he⟩ := Option.map_eq_some_iff.1 h
    obtain rfl := (Prod.mk.inj he).2
    have := length_of_afterChoices? hc
    simp only [List.length_cons]
    omega
  · split at h
    · obtain rfl := (Prod.mk.inj (Option.some.inj h)).2; simp
    · simp at h
  · next ls₁ =>
    obtain ⟨ls₂, hc, he⟩ := Option.map_eq_some_iff.1 h
    obtain rfl := (Prod.mk.inj he).2
    have := length_of_afterChoices? hc
    simp only [List.length_cons]
    omega
  · simp at h

theorem length_of_readDefault? {d : Option (List Char)} {ls rest : List Lexeme}
    (h : readDefault? ls = some (d, rest)) : rest.length ≤ ls.length := by
  unfold readDefault? at h
  split at h
  · obtain rfl := (Prod.mk.inj (Option.some.inj h)).2; simp
  · obtain rfl := (Prod.mk.inj (Option.some.inj h)).2; simp
  · obtain rfl := (Prod.mk.inj (Option.some.inj h)).2; simp only [List.length_cons]; omega
  · obtain rfl := (Prod.mk.inj (Option.some.inj h)).2; simp
  · simp at h

/-- Reads one rule after the other. -/
def ruleReader : Reader Lexeme AttributeRule where
  next := nextRule
  shorter := by
    intro ls a rest h
    unfold nextRule at h
    split at h
    · simp at h
    · next n ls₁ =>
      split at h
      · simp at h
      · next b ls₂ ht =>
        obtain ⟨r, hd, he⟩ := Option.map_eq_some_iff.1 h
        obtain rfl := (Prod.mk.inj he).2
        have h₁ := length_of_readType? ht
        have h₂ := length_of_readDefault? hd
        simp only [List.length_cons]
        omega
    · simp at h

/-- The attributes of an element. -/
def ofAttributes? : List Lexeme → Option Declaration
  | .name element none :: ls =>
    match ruleReader.all? ls with
    | some (rules, []) => some (attributes element rules)
    | _ => none
  | _ => none

/-! ### Content of elements -/

/-- Whether the lexemes behind the mark for text end the mixture of text and
elements: it may occur any number of times, unless it is text alone. -/
def endsMixture : List Lexeme → Bool
  | [.closing none] => true
  | ls => go ls
where
  /-- Whether names, each behind a bar, come before the end. -/
  go : List Lexeme → Bool
    | .bar :: .name _ none :: ls => go ls
    | [.closing (some '*')] => true
    | _ => false

/-- Whether lexemes finish the groups that are open, the innermost first, each
given by what stands between its parts so far; a part is due or not. -/
def endsGroups : (groups : List (Option Lexeme)) → (isDue : Bool) → List Lexeme → Bool
  | [], _, ls => ls.isEmpty
  | g :: gs, true, .opening :: ls => endsGroups (none :: g :: gs) true ls
  | g :: gs, true, .name _ _ :: ls => endsGroups (g :: gs) false ls
  | _ :: gs, false, .closing _ :: ls => endsGroups gs false ls
  | g :: gs, false, l :: ls =>
    (l = .comma || l = .bar) && (g = none || g = some l) && endsGroups (some l :: gs) true ls
  | _ :: _, _, _ => false

/-- The content of an element. -/
def ofElement? : List Lexeme → Option Declaration
  | [.name _ none, .plain "EMPTY"] => some other
  | [.name _ none, .plain "ANY"] => some other
  | .name _ none :: .opening :: .keyword "PCDATA" :: ls =>
    if endsMixture ls then some other else none
  | .name _ none :: .opening :: ls => if endsGroups [none] true ls then some other else none
  | _ => none

/-! ### Any declaration -/

/-- The declaration that lexemes write behind the word for what they declare. -/
def ofLexemes? (subject : String) (ls : List Lexeme) : Option Declaration :=
  match subject with
  | "ENTITY" => ofEntity? ls
  | "ATTLIST" => ofAttributes? ls
  | "ELEMENT" => ofElement? ls
  | "NOTATION" => ofNotation? ls
  | _ => none

end Declaration

end PredictiveParsing.Xml
