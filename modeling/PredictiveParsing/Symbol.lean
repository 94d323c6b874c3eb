/-
Grammar symbols.

A symbol of a consequent is a terminal, a non-terminal, the empty word `ε` or
the end marker `$`.  Only the first two carry a name of their own; the other
two names are reserved, so nobody can declare them.

* `Symbol.name` — the name a symbol is written by;
* `reserved` — the two names that cannot be declared;
* `Symbol.ofName` — the symbol a name stands for, given the non-terminals;
* `name_ofName` — tagging a name never changes it.
-/
namespace PredictiveParsing

/-- The name of the empty word. -/
def epsilonName : String := "ε"

/-- The name of the end marker, which closes every input and lies at the
bottom of every stack. -/
def endName : String := "$"

/-- The names no grammar may declare. -/
def reserved : List String := [epsilonName, endName]

/-- One place of a consequent. -/
inductive Symbol where
  | terminal (name : String)
  | nonTerminal (name : String)
  | epsilon
  | endMarker
  deriving DecidableEq, Repr, Inhabited

namespace Symbol

/-- The name a symbol is written by. -/
def name : Symbol → String
  | terminal n => n
  | nonTerminal n => n
  | epsilon => epsilonName
  | endMarker => endName

def isTerminal : Symbol → Bool
  | terminal _ => true
  | _ => false

def isNonTerminal : Symbol → Bool
  | nonTerminal _ => true
  | _ => false

def isEpsilon : Symbol → Bool
  | epsilon => true
  | _ => false

theorem isEpsilon_iff {s : Symbol} : s.isEpsilon = true ↔ s = epsilon := by
  cases s <;> simp [isEpsilon]

/-- The symbol a name stands for: a reserved name is its marker, a declared
non-terminal is one, and every other name, declared or not, is a terminal. -/
def ofName (nonTerminals : List String) (n : String) : Symbol :=
  if n = epsilonName then epsilon
  else if n = endName then endMarker
  else if n ∈ nonTerminals then nonTerminal n
  else terminal n

/-- Tagging a name never changes it. -/
@[simp] theorem name_ofName (nonTerminals : List String) (n : String) :
    (ofName nonTerminals n).name = n := by
  unfold ofName
  split
  · next h => exact h.symm
  · split
    · next h => exact h.symm
    · split <;> rfl

end Symbol

end PredictiveParsing
