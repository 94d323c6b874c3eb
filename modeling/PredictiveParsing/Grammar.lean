import PredictiveParsing.Family
import PredictiveParsing.Production.Parse

/-
Context-free grammars prepared for predictive analysis.

A grammar has a vocabulary (non-terminals and terminals), productions and a
start symbol, each replaced only as a whole.  It also remembers which
non-terminals a rewriting introduced, whether it was found valid, and its
FIRST and FOLLOW sets once they are computed; every replacement forgets the
last two.

* `Grammar` — the data;
* `setVocabulary`, `setProductions`, `setStart` — the replacements;
* `build` — a new grammar;
* `productionsOf`, `numberOf`, `hasEpsilonProduction`, `display` — queries.

Design notes:

* `Edit` is an operation that may fail and still leaves a grammar behind, so
  that what a failure leaves can be stated.
* Symbols of consequents are tagged when productions or vocabulary are
  replaced.  The non-terminals are replaced before the terminals are looked
  at; if those are refused, the tags are still those of the old vocabulary.
-/
namespace PredictiveParsing

/-- What is known about the well-formedness of a grammar. -/
inductive Validity where
  | unvalidated
  | valid
  | invalid
  deriving DecidableEq, Repr, Inhabited

/-- The word a validity is displayed by. -/
def Validity.label : Validity → String
  | unvalidated => "unvalidated"
  | valid => "valid"
  | invalid => "invalid"

/-- A grammar, with what was computed about it so far. -/
structure Grammar where
  name : String := ""
  description : String := ""
  nonTerminals : List String := []
  terminals : List String := []
  productions : List Production := []
  start : Option String := none
  /-- The non-terminals that a rewriting made up. -/
  introduced : List String := []
  validity : Validity := .unvalidated
  /-- The FIRST sets, if they are known. -/
  first : Option Family := none
  /-- The FOLLOW sets, if they are known. -/
  follow : Option Family := none
  deriving DecidableEq, Repr, Inhabited

/-- A production as it is handed in: displayed, or by its two sides. -/
inductive ProductionItem where
  | displayed (text : String)
  | sides (s : Sides)
  deriving DecidableEq, Repr

/-- The sides an item writes. -/
def ProductionItem.read : ProductionItem → Except Fault Sides
  | displayed text => Sides.parse text
  | sides s => .ok s

/-- An operation on a grammar that may fail; the grammar it leaves is there in
either case. -/
abbrev Edit (α : Type) := Grammar → Except Fault α × Grammar

namespace Grammar

/-! ### Vocabulary -/

/-- Takes one more name into a list of declared names: trimmed, unless it is
blank or there already.  Reserved names are refused. -/
def enlist (names : List String) (n : String) : Except Fault (List String) :=
  let n := Text.trim n
  if n = "" then .ok names
  else if n ∈ reserved then .error (.reservedName n)
  else if n ∈ names then .ok names
  else .ok (names ++ [n])

/-- The names that a list declares. -/
def declared (names : List String) : Except Fault (List String) :=
  names.foldlM enlist []

/-- The symbol a name stands for. -/
def symbol (g : Grammar) (n : String) : Symbol :=
  Symbol.ofName g.nonTerminals n

/-- Whether a name is a declared terminal. -/
def isTerminal (g : Grammar) (n : String) : Bool :=
  n ∈ g.terminals

/-- Whether a name is a declared non-terminal. -/
def isNonTerminal (g : Grammar) (n : String) : Bool :=
  n ∈ g.nonTerminals

/-- The production with the given sides, tagged against the vocabulary. -/
def tag (g : Grammar) (s : Sides) : Production :=
  .ofSymbols s.antecedent (s.names.map g.symbol)

/-- The productions, tagged anew. -/
def retagged (g : Grammar) : List Production :=
  g.productions.map (Production.retag g.nonTerminals)

/-! ### Replacing -/

/-- Forgets what was computed about the grammar. -/
def invalidate (g : Grammar) : Grammar :=
  { g with validity := .unvalidated, first := none, follow := none }

/-- Replaces the vocabulary and tags the productions anew. -/
def setVocabulary (nonTerminals terminals : List String) : Edit Unit := fun g =>
  match declared nonTerminals with
  | .error fault => (.error fault, g)
  | .ok nts =>
    let g := { g with nonTerminals := nts }
    match declared terminals with
    | .error fault => (.error fault, g)
    | .ok ts =>
      let introduced := g.introduced.filter fun n => n ∈ nts
      (.ok (), invalidate { g with terminals := ts, introduced, productions := g.retagged })

/-- Replaces the productions. -/
def setProductions (items : List ProductionItem) : Edit Unit := fun g =>
  match items.mapM ProductionItem.read with
  | .error fault => (.error fault, g)
  | .ok sides => (.ok (), invalidate { g with productions := sides.map g.tag })

/-- Replaces the start symbol; a blank name means none. -/
def setStart (start : Option String) (g : Grammar) : Grammar :=
  let n := Text.trim (start.getD "")
  invalidate { g with start := if n = "" then none else some n }

/-- A new grammar. -/
def build (name description : String) (nonTerminals terminals : List String)
    (items : List ProductionItem) (start : Option String) : Except Fault Grammar :=
  match setVocabulary nonTerminals terminals { name, description } with
  | (.error fault, _) => .error fault
  | (.ok (), g) =>
    match setProductions items g with
    | (.error fault, _) => .error fault
    | (.ok (), g) => .ok (g.setStart start)

/-- A grammar with the same vocabulary, productions, start symbol and validity,
its productions tagged anew and its sets not known. -/
def copy (g : Grammar) : Grammar :=
  { g with productions := g.retagged, first := none, follow := none }

/-! ### Queries -/

/-- The productions of an antecedent, in order. -/
def productionsOf (g : Grammar) (antecedent : String) : List Production :=
  g.productions.filter fun p => p.antecedent = antecedent

/-- The number a production is displayed with, counted from one. -/
def numberOf (g : Grammar) (p : Production) : Except Fault Nat :=
  match g.productions.idxOf? p with
  | some i => .ok (i + 1)
  | none => .error .unlistedProduction

/-- The productions with their numbers. -/
def numbered (g : Grammar) : List (Nat × Production) :=
  g.productions.zipIdx.map fun e => (e.2 + 1, e.1)

/-- Whether a name has a production that begins with `ε`. -/
def hasEpsilonProduction (g : Grammar) (n : String) : Bool :=
  g.productions.any fun p => p.antecedent == n && p.first.isEpsilon

/-- The productions in their displayed form, one a line. -/
def display (g : Grammar) : String :=
  Text.join "\n" (g.productions.map Production.text)

/-! ### What the replacements leave -/

/-- If the productions are refused, nothing has changed. -/
theorem setProductions_error {items : List ProductionItem} {g g' : Grammar} {fault : Fault}
    (h : setProductions items g = (.error fault, g')) : g' = g := by
  unfold setProductions at h
  split at h
  · cases h; rfl
  · simp at h

@[simp] theorem nonTerminals_setStart (start : Option String) (g : Grammar) :
    (g.setStart start).nonTerminals = g.nonTerminals := rfl

@[simp] theorem terminals_setStart (start : Option String) (g : Grammar) :
    (g.setStart start).terminals = g.terminals := rfl

@[simp] theorem productions_setStart (start : Option String) (g : Grammar) :
    (g.setStart start).productions = g.productions := rfl

/-- Taking a name in repeats none. -/
theorem enlist_nodup {names out : List String} {n : String} (h : enlist names n = .ok out)
    (hn : names.Nodup) : out.Nodup := by
  simp only [enlist] at h
  split at h
  · cases h; exact hn
  · split at h
    · cases h
    · split at h
      · cases h; exact hn
      · next hmem =>
        cases h
        rw [List.nodup_append]
        refine ⟨hn, by simp, ?_⟩
        rintro a ha b hb rfl
        exact hmem (by simpa using List.mem_singleton.1 hb ▸ ha)

end Grammar

end PredictiveParsing
