import PredictiveParsing.Simulation

/-
The derivation that a run has built so far.

* `site` — where a production is applied in a sentential form;
* `replaceAt` — a form with one of its names replaced;
* `Simulation.forms` — the sentential forms, one for each production applied;
* `Simulation.derivation` — the forms as they are displayed;
* `site_eq_idxOf?` — the site is where the antecedent occurs first;
* `site_leftmost` — it is that of the leftmost non-terminal, if it can be.

Design notes:

* The search goes for the leftmost non-terminal and, if that is another one,
  for the antecedent itself.  Where an error function changed the stack there
  may be no site at all, and then the production is passed over.
-/
namespace PredictiveParsing

/-- Where a production is applied in a form: at the leftmost non-terminal if
that is its antecedent, else where the antecedent occurs first. -/
def site (g : Grammar) (antecedent : String) (form : List String) : Option Nat :=
  match form.findIdx? g.isNonTerminal with
  | some i => if form[i]? = some antecedent then some i else form.idxOf? antecedent
  | none => form.idxOf? antecedent

/-- The form with the name at a place replaced. -/
def replaceAt (i : Nat) (replacement form : List String) : List String :=
  form.take i ++ replacement ++ form.drop (i + 1)

@[simp] theorem replaceAt_length (before behind replacement : List String) (n : String) :
    replaceAt before.length replacement (before ++ n :: behind) =
      before ++ replacement ++ behind := by
  simp [replaceAt]

/-- Either way the site is where the antecedent occurs first. -/
theorem site_eq_idxOf? (g : Grammar) (antecedent : String) (form : List String) :
    site g antecedent form = form.idxOf? antecedent := by
  unfold site
  split
  · next i hi =>
    split
    · next he =>
      obtain ⟨hlt, hn, hbefore⟩ := List.findIdx?_eq_some_iff_getElem.1 hi
      obtain rfl : form[i] = antecedent := by
        rw [List.getElem?_eq_getElem hlt] at he
        exact Option.some.inj he
      -- An earlier occurrence would be an earlier non-terminal.
      symm
      rw [List.idxOf?, List.findIdx?_eq_some_iff_getElem]
      refine ⟨hlt, by simp, fun j hj => ?_⟩
      intro he
      rw [beq_iff_eq] at he
      exact hbefore j hj (by rw [he]; exact hn)
    · rfl
  · rfl

/-- The site of the leftmost non-terminal. -/
theorem site_leftmost {g : Grammar} {before behind : List String} {n : String}
    (hbefore : ∀ a ∈ before, a ∉ g.nonTerminals) (hn : n ∈ g.nonTerminals) :
    site g n (before ++ n :: behind) = some before.length := by
  have hfind : (before ++ n :: behind).findIdx? g.isNonTerminal = some before.length := by
    rw [List.findIdx?_append, List.findIdx?_eq_none_iff.2 (by simpa [Grammar.isNonTerminal])]
    simp [List.findIdx?_cons, Grammar.isNonTerminal, hn]
  rw [site, hfind]
  simp

namespace Simulation

/-- The productions applied so far, in order. -/
def applied (s : Simulation) : List Production :=
  s.history.filterMap Record.production

/-- The forms that follow a given one. -/
def formsFrom (g : Grammar) (form : List String) : List Production → List (List String)
  | [] => []
  | p :: ps =>
    match site g p.antecedent form with
    | none => formsFrom g form ps
    | some i =>
      let form := replaceAt i (p.yield.map Symbol.name) form
      form :: formsFrom g form ps

/-- The start symbol of the grammar; the empty name if there is none. -/
def startName (s : Simulation) : String :=
  s.grammar.start.getD ""

/-- The sentential forms, beginning with the start symbol. -/
def forms (s : Simulation) : List (List String) :=
  [s.startName] :: formsFrom s.grammar [s.startName] s.applied

/-- A form as it is displayed; the empty one is `ε`. -/
def formText : List String → String
  | [] => epsilonName
  | form => Text.join " " form

/-- The forms as they are displayed. -/
def derivation (s : Simulation) : List String :=
  s.forms.map formText

end Simulation

end PredictiveParsing
