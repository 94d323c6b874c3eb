import Mathlib.Logic.Relation
import PredictiveParsing.Grammar

/-
Derivations of a grammar, and the words its non-terminals generate.

A sentential form is a list of names.  Rewriting puts the word of a production
in place of one occurrence of its antecedent; an `ε` is the empty word
wherever it stands in a consequent.

* `Grammar.Rewrites`, `Grammar.Derives` — one rewriting, and any number;
* `Grammar.Generates` — the words without non-terminals that a name derives;
* `Grammar.Yields` — the same, name by name from the left;
* `yields_append_iff`, `yields_cons_iff` — what two forms behind one another
  yield;
* `Spells`, `Yields.spells` — what a form yields holds in every reading of
  the names that is closed under the rules;
* `yields_iff`, `generates_iff` — `Yields` is derivation of words without
  non-terminals.

Design notes:

* Inductions go over `Yields`, which has a derivation of a form in one shape
  only.  Where the claim is about single names, a reading closed under the
  rules says what has to be checked for each rule.
-/
namespace PredictiveParsing

/-- The names that take the place of the antecedent: the consequent without
`ε`. -/
def Production.word (p : Production) : List String :=
  p.names.filter (· ≠ epsilonName)

theorem Production.mem_word_iff {p : Production} {a : String} :
    a ∈ p.word ↔ a ∈ p.names ∧ a ≠ epsilonName := by
  simp [word]

/-- What replaces the antecedent on a stack has the names of the word. -/
theorem Production.filter_yield (p : Production) :
    (p.yield.map Symbol.name).filter (· ≠ epsilonName) = p.word := by
  rw [yield]
  split
  · next h =>
    obtain ⟨hf, hr⟩ := isEpsilon_iff.1 h
    rw [word, names, consequent, hf, hr]
    rfl
  · rfl

namespace Grammar

/-- The grammar has a production of the name with the given word. -/
def Rule (g : Grammar) (n : String) (word : List String) : Prop :=
  ∃ p ∈ g.productions, p.antecedent = n ∧ p.word = word

/-- One rewriting of a sentential form. -/
def Rewrites (g : Grammar) (u v : List String) : Prop :=
  ∃ before n word behind, g.Rule n word ∧
    u = before ++ n :: behind ∧ v = before ++ word ++ behind

/-- Any number of rewritings. -/
def Derives (g : Grammar) : List String → List String → Prop :=
  Relation.ReflTransGen g.Rewrites

/-- The name derives the word, which has no non-terminals. -/
def Generates (g : Grammar) (n : String) (w : List String) : Prop :=
  g.Derives [n] w ∧ ∀ a ∈ w, a ∉ g.nonTerminals

/-- The form derives the word, which has no non-terminals: the leftmost name
stays if it is no non-terminal, or is replaced. -/
inductive Yields (g : Grammar) : List String → List String → Prop where
  | nil : Yields g [] []
  | keep {a : String} {u w : List String} (ha : a ∉ g.nonTerminals) (h : Yields g u w) :
      Yields g (a :: u) (a :: w)
  | expand {a : String} {v u w : List String} (hr : g.Rule a v) (h : Yields g (v ++ u) w) :
      Yields g (a :: u) w

end Grammar

/-- The form spells the word if each name is read as some word. -/
def Spells (S : String → List String → Prop) : List String → List String → Prop
  | [], w => w = []
  | a :: u, w => ∃ x y, w = x ++ y ∧ S a x ∧ Spells S u y

variable {S : String → List String → Prop}

theorem spells_append {u v w : List String} :
    Spells S (u ++ v) w ↔ ∃ x y, w = x ++ y ∧ Spells S u x ∧ Spells S v y := by
  induction u generalizing w with
  | nil =>
    constructor
    · exact fun h => ⟨[], w, rfl, rfl, h⟩
    · rintro ⟨_, y, rfl, rfl, hy⟩
      exact hy
  | cons a u ih =>
    simp only [List.cons_append, Spells, ih]
    constructor
    · rintro ⟨x, _, rfl, hx, y, z, rfl, hy, hz⟩
      exact ⟨x ++ y, z, by simp, ⟨x, y, rfl, hx, hy⟩, hz⟩
    · rintro ⟨_, z, rfl, ⟨x, y, rfl, hx, hy⟩, hz⟩
      exact ⟨x, y ++ z, by simp, hx, y, z, rfl, hy, hz⟩

@[simp] theorem spells_singleton {a : String} {w : List String} : Spells S [a] w ↔ S a w := by
  simp [Spells]

theorem Spells.mono {S' : String → List String → Prop} {u w : List String}
    (h : Spells S u w) (hS : ∀ a ∈ u, ∀ x, S a x → S' a x) : Spells S' u w := by
  induction u generalizing w with
  | nil => exact h
  | cons a u ih =>
    obtain ⟨x, y, hw, hx, hy⟩ := h
    exact ⟨x, y, hw, hS a (by simp) x hx, ih hy fun b hb => hS b (by simp [hb])⟩

namespace Grammar

variable {g : Grammar}

/-! ### Forms behind one another -/

theorem Yields.append {u v x y : List String} (hu : g.Yields u x) (hv : g.Yields v y) :
    g.Yields (u ++ v) (x ++ y) := by
  induction hu with
  | nil => exact hv
  | keep ha _ ih => exact .keep ha ih
  | expand hr _ ih =>
    rw [List.append_assoc] at ih
    exact .expand hr ih

/-- **What a form yields holds in every closed reading**: one that reads the
other names as themselves and follows the rules for the non-terminals. -/
theorem Yields.spells {u w : List String} (h : g.Yields u w)
    (hkeep : ∀ a, a ∉ g.nonTerminals → S a [a])
    (hrule : ∀ a v x, g.Rule a v → Spells S v x → S a x) : Spells S u w := by
  induction h with
  | nil => rfl
  | keep ha _ ih => exact ⟨[_], _, rfl, hkeep _ ha, ih⟩
  | expand hr _ ih =>
    obtain ⟨x, y, rfl, hx, hy⟩ := spells_append.1 ih
    exact ⟨x, y, rfl, hrule _ _ _ hr hx, hy⟩

theorem yields_of_spells {u w : List String} (h : Spells (fun a x => g.Yields [a] x) u w) :
    g.Yields u w := by
  induction u generalizing w with
  | nil =>
    cases h
    exact .nil
  | cons a u ih =>
    obtain ⟨x, y, rfl, hx, hy⟩ := h
    exact hx.append (ih hy)

/-- A form yields what its names yield, one behind the other. -/
theorem yields_iff_spells {u w : List String} :
    g.Yields u w ↔ Spells (fun a x => g.Yields [a] x) u w := by
  refine ⟨fun h => h.spells (fun a ha => .keep ha .nil) fun a v x hr hx => ?_, yields_of_spells⟩
  exact .expand hr (by rw [List.append_nil]; exact yields_of_spells hx)

theorem yields_append_iff {u v w : List String} :
    g.Yields (u ++ v) w ↔ ∃ x y, w = x ++ y ∧ g.Yields u x ∧ g.Yields v y := by
  rw [yields_iff_spells, spells_append]
  simp only [← yields_iff_spells]

theorem yields_cons_iff {a : String} {u w : List String} :
    g.Yields (a :: u) w ↔ ∃ x y, w = x ++ y ∧ g.Yields [a] x ∧ g.Yields u y :=
  yields_append_iff (u := [a])

/-- A word of a non-terminal comes from one of its rules. -/
theorem Yields.exists_rule {a : String} {w : List String} (h : g.Yields [a] w)
    (ha : a ∈ g.nonTerminals) : ∃ v, g.Rule a v ∧ g.Yields v w := by
  cases h with
  | keep hn _ => exact absurd ha hn
  | expand hr h => exact ⟨_, hr, by rwa [List.append_nil] at h⟩

theorem yields_of_rule {a : String} {v w : List String} (hr : g.Rule a v) (h : g.Yields v w) :
    g.Yields [a] w :=
  .expand hr (by rwa [List.append_nil])

/-! ### Yielding is derivation -/

theorem Yields.notMem_nonTerminals {u w : List String} (h : g.Yields u w) :
    ∀ a ∈ w, a ∉ g.nonTerminals := by
  induction h with
  | nil => simp
  | keep ha _ ih => simpa [ha] using ih
  | expand _ _ ih => exact ih

theorem Rewrites.append_left {u v : List String} (h : g.Rewrites u v) (x : List String) :
    g.Rewrites (x ++ u) (x ++ v) := by
  obtain ⟨before, n, word, behind, hr, rfl, rfl⟩ := h
  exact ⟨x ++ before, n, word, behind, hr, by simp, by simp⟩

theorem Derives.append_left {u v : List String} (h : g.Derives u v) (x : List String) :
    g.Derives (x ++ u) (x ++ v) :=
  h.lift (x ++ ·) fun _ _ h => h.append_left x

theorem Yields.derives {u w : List String} (h : g.Yields u w) : g.Derives u w := by
  induction h with
  | nil => exact .refl
  | keep _ _ ih => exact ih.append_left [_]
  | expand hr _ ih => exact .head ⟨[], _, _, _, hr, rfl, rfl⟩ ih

/-- Taking a rewriting back keeps what is yielded. -/
theorem Yields.of_rewrites {u v w : List String} (hr : g.Rewrites u v) (h : g.Yields v w) :
    g.Yields u w := by
  obtain ⟨before, n, word, behind, hrule, rfl, rfl⟩ := hr
  rw [List.append_assoc] at h
  obtain ⟨x, y, rfl, hx, hy⟩ := yields_append_iff.1 h
  exact hx.append (.expand hrule hy)

theorem yields_self {w : List String} (hw : ∀ a ∈ w, a ∉ g.nonTerminals) : g.Yields w w := by
  induction w with
  | nil => exact .nil
  | cons a w ih => exact .keep (hw a (by simp)) (ih fun b hb => hw b (by simp [hb]))

theorem yields_iff {u w : List String} :
    g.Yields u w ↔ g.Derives u w ∧ ∀ a ∈ w, a ∉ g.nonTerminals := by
  refine ⟨fun h => ⟨h.derives, h.notMem_nonTerminals⟩, ?_⟩
  rintro ⟨h, hw⟩
  induction h using Relation.ReflTransGen.head_induction_on with
  | refl => exact yields_self hw
  | head hr _ ih => exact .of_rewrites hr ih

theorem generates_iff {n : String} {w : List String} : g.Generates n w ↔ g.Yields [n] w :=
  yields_iff.symm

end Grammar

end PredictiveParsing
