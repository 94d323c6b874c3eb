import PredictiveParsing.Grammar.Validation
import PredictiveParsing.Proofs.Grammar.Derivation
import PredictiveParsing.Proofs.Grammar.Vocabulary

/-
Well-formed grammars.

* `Grammar.WellFormed` — what a grammar without breaches is like;
* `wellFormed_iff` — validation finds no error exactly in these grammars;
* `WellFormed.endName_notMem_names` — no consequent of one holds the end marker.
-/
namespace PredictiveParsing

namespace Grammar

/-- The grammar has all its parts, declares every name that occurs, none of
them twice, and uses every name it declares. -/
structure WellFormed (g : Grammar) : Prop where
  productions_ne_nil : g.productions ≠ []
  terminals_ne_nil : g.terminals ≠ []
  nonTerminals_ne_nil : g.nonTerminals ≠ []
  start_mem : ∃ s, g.start = some s ∧ s ∈ g.nonTerminals
  disjoint : ∀ n ∈ g.terminals, n ∉ g.nonTerminals
  terminal_used : ∀ n ∈ g.terminals, n ∈ g.usedNames
  nonTerminal_used : ∀ n ∈ g.nonTerminals, some n ≠ g.start → n ∈ g.usedNames
  antecedent_mem : ∀ p ∈ g.productions, p.antecedent ∈ g.nonTerminals
  symbol_declared : ∀ p ∈ g.productions, ∀ s ∈ p.consequent,
    s.isEpsilon = true ∨ s.name ∈ g.nonTerminals ∨ s.name ∈ g.terminals

/-- Every breach is an error. -/
theorem severity_of_mem_problems {g : Grammar} {d : Diagnostic} (h : d ∈ g.problems) :
    d.severity = .error := by
  have hstart : ∀ d ∈ g.startProblems, d.severity = .error := by
    rw [startProblems]
    split
    · simp
    · split <;> simp [Diagnostic.about]
  simp only [problems, List.mem_append] at h
  rcases h with (((((h | h) | h) | h) | h) | h) | h
  · simp only [missingParts, List.mem_append] at h
    rcases h with (h | h) | h <;> split at h <;> simp at h <;> simp [h]
  · exact hstart d h
  · obtain ⟨_, -, rfl⟩ := List.mem_map.1 h
    rfl
  · obtain ⟨_, -, rfl⟩ := List.mem_map.1 h
    rfl
  · obtain ⟨_, -, rfl⟩ := List.mem_map.1 h
    rfl
  · obtain ⟨_, -, rfl⟩ := List.mem_map.1 h
    rfl
  · obtain ⟨_, -, h⟩ := List.mem_flatMap.1 h
    obtain ⟨_, -, rfl⟩ := List.mem_map.1 h
    rfl

theorem hasErrors_problems_iff {g : Grammar} :
    Diagnostic.hasErrors g.problems = false ↔ g.problems = [] := by
  constructor
  · intro h
    rw [Diagnostic.hasErrors, List.any_eq_false] at h
    rw [List.eq_nil_iff_forall_not_mem]
    exact fun d hd => h d hd (by simp [severity_of_mem_problems hd])
  · intro h
    rw [h]
    rfl

theorem startProblems_eq_nil_iff {g : Grammar} :
    g.startProblems = [] ↔ ∃ s, g.start = some s ∧ s ∈ g.nonTerminals := by
  rw [startProblems]
  split
  · next h => simp [h]
  · next s h =>
    split
    · next hs => simp [h, hs]
    · next hs => simp [h, hs]

theorem undeclaredSymbols_eq_nil_iff {g : Grammar} :
    g.undeclaredSymbols = [] ↔ ∀ p ∈ g.productions, ∀ s ∈ p.consequent,
      s.isEpsilon = true ∨ s.name ∈ g.nonTerminals ∨ s.name ∈ g.terminals := by
  rw [undeclaredSymbols]
  rw [List.flatMap_eq_nil_iff]
  refine forall₂_congr fun p _ => ?_
  rw [List.map_eq_nil_iff, List.filter_eq_nil_iff]
  refine forall₂_congr fun s _ => ?_
  cases s.isEpsilon <;> by_cases hn : s.name ∈ g.nonTerminals <;>
    simp [isNonTerminal, isTerminal, hn]

/-- **Validation finds no error exactly in the well-formed grammars.** -/
theorem wellFormed_iff {g : Grammar} :
    Diagnostic.hasErrors g.problems = false ↔ g.WellFormed := by
  rw [hasErrors_problems_iff]
  constructor
  · intro h
    simp only [problems, missingParts, List.append_eq_nil_iff, doubleDeclarations,
      unusedTerminals, unusedNonTerminals, undeclaredAntecedents, List.map_eq_nil_iff,
      List.filter_eq_nil_iff] at h
    obtain ⟨⟨⟨⟨⟨⟨⟨⟨hp, ht⟩, hn⟩, hs⟩, hd⟩, hut⟩, hun⟩, ha⟩, hsy⟩ := h
    refine ⟨?_, ?_, ?_, startProblems_eq_nil_iff.1 hs, ?_, ?_, ?_, ?_,
      undeclaredSymbols_eq_nil_iff.1 hsy⟩
    · intro he
      simp [he] at hp
    · intro he
      simp [he] at ht
    · intro he
      simp [he] at hn
    · simpa using hd
    · simpa using hut
    · intro n hm hne
      simpa [hne] using hun n hm
    · simpa using ha
  · intro h
    -- Each part of well-formedness keeps one kind of breach away.
    have hparts : g.missingParts = [] := by
      simp [missingParts, h.productions_ne_nil, h.terminals_ne_nil, h.nonTerminals_ne_nil]
    have hdouble : g.doubleDeclarations = [] := by
      simpa [doubleDeclarations] using h.disjoint
    have hterminals : g.unusedTerminals = [] := by
      simpa [unusedTerminals] using h.terminal_used
    have hnonTerminals : g.unusedNonTerminals = [] := by
      simpa [unusedNonTerminals] using h.nonTerminal_used
    have hantecedents : g.undeclaredAntecedents = [] := by
      simpa [undeclaredAntecedents] using h.antecedent_mem
    rw [problems, hparts, startProblems_eq_nil_iff.2 h.start_mem, hdouble, hterminals,
      hnonTerminals, hantecedents, undeclaredSymbols_eq_nil_iff.2 h.symbol_declared]
    rfl

/-- A name that occurs in a well-formed grammar is `ε` or declared. -/
theorem WellFormed.name_declared {g : Grammar} (h : g.WellFormed) {p : Production}
    (hp : p ∈ g.productions) {n : String} (hn : n ∈ p.names) :
    n = epsilonName ∨ n ∈ g.nonTerminals ∨ n ∈ g.terminals := by
  obtain ⟨s, hs, rfl⟩ := List.mem_map.1 hn
  rcases h.symbol_declared p hp s hs with he | hd
  · left
    rw [Symbol.isEpsilon_iff.1 he]
    rfl
  · exact .inr hd

/-- The names of a word are declared. -/
theorem WellFormed.word_declared {g : Grammar} (h : g.WellFormed) {p : Production}
    (hp : p ∈ g.productions) {n : String} (hn : n ∈ p.word) :
    n ∈ g.nonTerminals ∨ n ∈ g.terminals := by
  obtain ⟨hn, hne⟩ := Production.mem_word_iff.1 hn
  exact (h.name_declared hp hn).resolve_left hne

/-- A name without productions yields itself alone. -/
theorem WellFormed.yields_singleton {g : Grammar} (h : g.WellFormed) {a : String}
    {w : List String} (ha : a ∉ g.nonTerminals) (hy : g.Yields [a] w) : w = [a] := by
  cases hy with
  | keep _ hy =>
    cases hy
    rfl
  | expand hr _ =>
    obtain ⟨p, hp, rfl, -⟩ := hr
    exact absurd (h.antecedent_mem p hp) ha

/-- Declared names yield words of terminals. -/
theorem WellFormed.mem_terminals_of_yields {g : Grammar} (h : g.WellFormed) {u w : List String}
    (hy : g.Yields u w) (hu : ∀ a ∈ u, a ∈ g.nonTerminals ∨ a ∈ g.terminals) :
    ∀ a ∈ w, a ∈ g.terminals := by
  induction hy with
  | nil => simp
  | keep ha _ ih =>
    rw [List.forall_mem_cons] at hu ⊢
    exact ⟨hu.1.resolve_left ha, ih hu.2⟩
  | expand hr _ ih =>
    obtain ⟨p, hp, rfl, rfl⟩ := hr
    refine ih fun b hb => ?_
    rcases List.mem_append.1 hb with hb | hb
    · exact h.word_declared hp hb
    · exact hu b (List.mem_cons_of_mem _ hb)

/-- The end marker occurs in no consequent. -/
theorem WellFormed.endName_notMem_names {g : Grammar} (h : g.WellFormed) (hg : g.Named)
    {p : Production} (hp : p ∈ g.productions) : endName ∉ p.names := by
  intro hn
  rcases h.name_declared hp hn with he | hm | hm
  · simp [endName, epsilonName] at he
  · exact hg.nonTerminals.endName_notMem hm
  · exact hg.terminals.endName_notMem hm

end Grammar

end PredictiveParsing
