import PredictiveParsing.Symbol
import PredictiveParsing.Text.Cut

/-
Productions.

A production puts its consequent in place of its antecedent.  The antecedent
is a name and the consequent a list of symbols that is never empty: the empty
word is written as the one symbol `ε`.

* `Production.consequent` — the symbols of the right-hand side;
* `Production.ofSymbols` — a production from any list of symbols;
* `Production.text` — the displayed form `A → x y`;
* `Production.size` — the length of the consequent.

Design notes:

* The first symbol is a field of its own.  Every decision of predictive
  parsing looks at it, and no production is without one.
-/
namespace PredictiveParsing

/-- The arrow of a displayed production. -/
def arrow : String := "→"

/-- A rewriting rule; its consequent is `first :: rest`. -/
structure Production where
  antecedent : String
  first : Symbol
  rest : List Symbol
  deriving DecidableEq, Repr, Inhabited

namespace Production

/-- The right-hand side. -/
def consequent (p : Production) : List Symbol :=
  p.first :: p.rest

/-- The names of the right-hand side. -/
def names (p : Production) : List String :=
  p.consequent.map Symbol.name

/-- The production with the given consequent; no symbols at all mean `ε`. -/
def ofSymbols (antecedent : String) : List Symbol → Production
  | [] => ⟨antecedent, .epsilon, []⟩
  | s :: ss => ⟨antecedent, s, ss⟩

/-- Whether the consequent is the empty word and nothing else. -/
def isEpsilon (p : Production) : Bool :=
  p.first.isEpsilon && p.rest.isEmpty

theorem isEpsilon_iff {p : Production} :
    p.isEpsilon = true ↔ p.first = .epsilon ∧ p.rest = [] := by
  rw [isEpsilon, Bool.and_eq_true, Symbol.isEpsilon_iff, List.isEmpty_iff]

/-- The symbols that replace the antecedent in a sentential form: none for the
empty word, the consequent otherwise. -/
def yield (p : Production) : List Symbol :=
  if p.isEpsilon then [] else p.consequent

/-- The length of the consequent. -/
def size (p : Production) : Nat :=
  p.consequent.length

/-- The displayed form, `A → x y`. -/
def text (p : Production) : String :=
  p.antecedent ++ " " ++ arrow ++ " " ++ Text.join " " p.names

/-- The same names, tagged against a vocabulary. -/
def retag (nonTerminals : List String) (p : Production) : Production :=
  ofSymbols p.antecedent (p.names.map (Symbol.ofName nonTerminals))

@[simp] theorem antecedent_ofSymbols (a : String) (ss : List Symbol) :
    (ofSymbols a ss).antecedent = a := by
  cases ss <;> rfl

theorem consequent_ofSymbols (a : String) (ss : List Symbol) :
    (ofSymbols a ss).consequent = if ss = [] then [.epsilon] else ss := by
  cases ss <;> simp [ofSymbols, consequent]

@[simp] theorem antecedent_retag (nonTerminals : List String) (p : Production) :
    (p.retag nonTerminals).antecedent = p.antecedent :=
  antecedent_ofSymbols _ _

/-- Tagging again changes no name. -/
@[simp] theorem names_retag (nonTerminals : List String) (p : Production) :
    (p.retag nonTerminals).names = p.names := by
  simp [retag, names, consequent, ofSymbols]

@[simp] theorem name_first_retag (nonTerminals : List String) (p : Production) :
    (p.retag nonTerminals).first.name = p.first.name :=
  Symbol.name_ofName nonTerminals p.first.name

end Production

end PredictiveParsing
