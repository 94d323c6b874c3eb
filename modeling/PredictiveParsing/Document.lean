import PredictiveParsing.Grammar

/-
Grammar documents: grammars as they are exchanged.

A document is a plain tree of texts: a name, a description, the vocabulary, a
start symbol and rules, each with an antecedent and the names of a consequent.

* `Document` — the documents;
* `Document.read`, `Document.toValue` — documents as values;
* `Document.toGrammar`, `Grammar.toDocument` — documents as grammars;
* `Document.toGrammar_faulty` — a document with problems gives no grammar.

Design notes:

* All problems of a document are reported together: the reserved names it
  declares, then the rules without an antecedent.
* Rules are trimmed and blank names dropped on the way to a grammar.
-/
namespace PredictiveParsing

/-- A grammar as it is exchanged. -/
structure Document where
  name : String := ""
  description : String := ""
  nonTerminals : List String := []
  terminals : List String := []
  start : Option String := none
  rules : List Sides := []
  deriving DecidableEq, Repr, Inhabited

namespace Document

/-! ### Documents as values -/

/-- Reads a rule; `complaint` is raised where an object is missing. -/
def readRule (complaint : FieldCause) : Value → Checked Sides :=
  Value.readObject complaint fun fields =>
    Sides.mk
      <$> Value.required "lhs" Value.readText fields
      <*> Value.withDefault "rhs" [] (Value.readList Value.readText) fields

/-- Reads a document; `complaint` is raised where an object is missing. -/
def read (complaint : FieldCause) : Value → Checked Document :=
  Value.readObject complaint fun fields =>
    let texts := Value.readList Value.readText
    Document.mk
      <$> Value.withDefault "name" "" Value.readText fields
      <*> Value.withDefault "description" "" Value.readText fields
      <*> Value.withDefault "non_terminals" [] texts fields
      <*> Value.withDefault "terminals" [] texts fields
      <*> Value.withDefault "start_symbol" none (Value.readOptional Value.readText) fields
      <*> Value.withDefault "rules" [] (Value.readList (readRule complaint)) fields

/-- The document that a value holds. -/
def ofValue (v : Value) : Except Fault Document :=
  (read .notModel v).toExcept.mapError .invalidFields

/-- A rule as a value. -/
def ruleValue (r : Sides) : Value :=
  .object [("lhs", .text r.antecedent), ("rhs", .texts r.names)]

/-- A document as a value. -/
def toValue (d : Document) : Value :=
  .object
    [("name", .text d.name), ("description", .text d.description),
      ("non_terminals", .texts d.nonTerminals), ("terminals", .texts d.terminals),
      ("start_symbol", .optionalText d.start), ("rules", .list (d.rules.map ruleValue))]

/-! ### Documents as grammars -/

/-- The reserved names that a document declares. -/
def reservedDeclarations (d : Document) : List Diagnostic :=
  (((d.nonTerminals ++ d.terminals).map Text.trim).filter (· ∈ reserved)).map fun n =>
    .about .reservedSymbol n
      ("'" ++ n ++ "' is reserved and cannot be declared as a grammar symbol.")

/-- The rules without an antecedent, counted from one. -/
def rulesWithoutAntecedent (d : Document) : List Diagnostic :=
  (d.rules.zipIdx.filter fun r => Text.trim r.1.antecedent = "").map fun r =>
    { kind := .malformedRule
      message := "Rule " ++ toString (r.2 + 1) ++ " has an empty left-hand side." }

/-- Everything that keeps a document from being a grammar. -/
def problems (d : Document) : List Diagnostic :=
  d.reservedDeclarations ++ d.rulesWithoutAntecedent

/-- A rule with its names trimmed and blank ones dropped. -/
def tidied (r : Sides) : Sides :=
  ⟨Text.trim r.antecedent, (r.names.map Text.trim).filter (· ≠ "")⟩

/-- The grammar that a document describes. -/
def toGrammar (d : Document) : Except Fault Grammar :=
  match d.problems with
  | [] =>
    Grammar.build d.name d.description d.nonTerminals d.terminals
      (d.rules.map fun r => .sides (tidied r)) d.start
  | problems => .error (.invalidGrammar problems)

/-- A document with problems gives no grammar. -/
theorem toGrammar_faulty {d : Document} (h : d.problems ≠ []) :
    d.toGrammar = .error (.invalidGrammar d.problems) := by
  unfold toGrammar
  split
  · next he => exact absurd he h
  · rfl

end Document

/-- The document that describes a grammar. -/
def Grammar.toDocument (g : Grammar) : Document where
  name := g.name
  description := g.description
  nonTerminals := g.nonTerminals
  terminals := g.terminals
  start := g.start
  rules := g.productions.map Production.sides

end PredictiveParsing
