import PredictiveParsing.Proofs.Grammar.Validity
import PredictiveParsing.Proofs.Table.Prediction

/-
What a query for one cell finds, and what the cell holds.

A production can be chosen on a terminal if it begins with it, if it is empty
and the terminal can follow, or if it begins with a non-terminal that can begin
with the terminal.  The table also enters a production whose first symbol is a
non-terminal that can be empty.  Those are the ones that the query passes over,
and the only difference between the two.

* `mem_candidates_iff` — what the query finds;
* `Grammar.passedOver` — the productions of a cell that it does not find;
* `predicts_iff_mem_candidates_or_passedOver` — the table predicts either of them;
* `cell_of_candidates` — what a cell holds, and whether it has a conflict;
* `exists_cell_without_candidates` — a cell for which the query finds nothing.

Design notes:

* The sets may be outdated.  Query and table rest on the same sets, and the
  cases are told apart by the first symbol alone.
* The kinds of the symbols have to be right.  A name that is tagged as a
  non-terminal and is declared as a terminal is found under its own name, and
  is entered under what it can begin with.
-/
namespace PredictiveParsing

namespace Production

/-- The production begins with a non-terminal that can be empty and cannot
begin with the terminal, which can follow the antecedent. -/
def PassesOver (first follow : Family) (terminal : String) (p : Production) : Prop :=
  p.first.isNonTerminal = true ∧ epsilonName ∈ first.of p.first.name ∧
    terminal ∈ follow.of p.antecedent ∧ terminal ∉ first.of p.first.name

instance (first follow : Family) (terminal : String) (p : Production) :
    Decidable (p.PassesOver first follow terminal) :=
  inferInstanceAs (Decidable (_ ∧ _ ∧ _ ∧ _))

end Production

namespace Grammar

variable {g : Grammar} {first follow : Family} {a terminal : String} {p : Production}

/-- The productions of an antecedent that the query for a cell passes over
although the table enters them there. -/
def passedOver (g : Grammar) (antecedent terminal : String) : List Production :=
  (g.productionsOf antecedent).filter fun p =>
    p.PassesOver g.knownSets.1 g.knownSets.2.1 terminal

/-! ### What the query finds -/

theorem mem_productionsOf_iff :
    p ∈ g.productionsOf a ↔ p ∈ g.productions ∧ p.antecedent = a := by
  simp [productionsOf]

theorem mem_passedOver_iff :
    p ∈ g.passedOver a terminal ↔ (p ∈ g.productions ∧ p.antecedent = a) ∧
      p.PassesOver g.knownSets.1 g.knownSets.2.1 terminal := by
  rw [passedOver, List.mem_filter, mem_productionsOf_iff, decide_eq_true_iff]

/-- The query finds the productions that fit in any of the three ways. -/
theorem mem_candidates_iff :
    p ∈ (g.candidates a terminal).1 ↔ (p ∈ g.productions ∧ p.antecedent = a) ∧
      ∃ f, fit g.knownSets.1 g.knownSets.2.1 terminal p = some f := by
  have hps : g.knownSets.2.2.productions = g.productions := by rw [knownSets_eq]
  simp only [candidates, List.mem_append, List.mem_filter, decide_eq_true_iff,
    mem_productionsOf_iff, hps, ← and_or_left]
  refine and_congr_right fun _ => ⟨?_, ?_⟩
  · rintro ((h | h) | h)
    · exact ⟨_, h⟩
    · exact ⟨_, h⟩
    · exact ⟨_, h⟩
  · rintro ⟨f, h⟩
    cases f with
    | direct => exact .inl (.inl h)
    | byFollow => exact .inl (.inr h)
    | byFirst => exact .inr h

/-! ### How a production fits, by its first symbol -/

theorem exists_fit_of_first_eq {n : String} (hp : p.first = .nonTerminal n) (hn : n ≠ terminal) :
    (∃ f, fit first follow terminal p = some f) ↔ terminal ∈ first.of n := by
  rw [fit, hp]
  by_cases ht : terminal ∈ first.of n <;>
    simp [Symbol.name, Symbol.isEpsilon, Symbol.isNonTerminal, hn, ht]

/-- Any other symbol fits if it is the terminal, and `ε` by what can follow. -/
theorem exists_fit_of_isNonTerminal_eq_false (hp : p.first.isNonTerminal = false)
    (ht : terminal ≠ epsilonName) :
    (∃ f, fit first follow terminal p = some f) ↔
      p.first.name = terminal ∨ p.first = .epsilon ∧ terminal ∈ follow.of p.antecedent := by
  rw [fit]
  by_cases hn : p.first.name = terminal
  · simp [hn]
  · rw [if_neg hn, hp]
    by_cases he : p.first = .epsilon
    · by_cases hf : terminal ∈ follow.of p.antecedent <;>
        simp [he, hf, Symbol.isEpsilon, Symbol.name, ht.symm]
    · have he' : p.first.isEpsilon = false := by
        simpa using fun h => he (Symbol.isEpsilon_iff.1 h)
      simp [he, he', hn]

theorem not_passesOver_of_fit (hne : p.first.isNonTerminal = true → p.first.name ≠ terminal)
    (hf : ∃ f, fit first follow terminal p = some f) : ¬ p.PassesOver first follow terminal := by
  rintro ⟨hn, -, -, hnot⟩
  obtain ⟨n, he⟩ := exists_of_isNonTerminal hn
  rw [exists_fit_of_first_eq he (by simpa [he, Symbol.name] using hne hn)] at hf
  exact hnot (by simpa [he, Symbol.name] using hf)

/-- **A production is entered in a cell exactly if it fits there or is passed
over.**  The name of a first symbol tells whether it is a non-terminal or
`ε`. -/
theorem selects_iff_fit_or_passesOver (ht : terminal ≠ epsilonName)
    (hn : p.first.isNonTerminal = true → p.first.name ≠ terminal)
    (hε : p.first.name = epsilonName → p.first = .epsilon) :
    p.Selects first follow p.antecedent terminal ↔
      (∃ f, fit first follow terminal p = some f) ∨ p.PassesOver first follow terminal := by
  rw [Production.selects_iff, and_iff_right rfl]
  by_cases hnt : p.first.isNonTerminal = true
  · obtain ⟨n, he⟩ := exists_of_isNonTerminal hnt
    have hset : p.firstSet first = first.of n := by rw [Production.firstSet, he]
    rw [exists_fit_of_first_eq he (by simpa [he, Symbol.name] using hn hnt), hset,
      Production.PassesOver, he]
    by_cases hf : terminal ∈ first.of n <;> simp [hf, ht, Symbol.isNonTerminal, Symbol.name]
  · -- A terminal and `ε` begin with their own names and nothing else.
    have hnt' : p.first.isNonTerminal = false := by simpa using hnt
    have hset : ∀ x, x ∈ p.firstSet first ↔ p.first.name = x := by
      intro x
      rw [mem_firstSet_iff]
      constructor
      · rintro (⟨-, h⟩ | ⟨n, hp, -⟩)
        · exact h
        · simp [hp, Symbol.isNonTerminal] at hnt'
      · exact fun h => .inl ⟨hnt', h⟩
    have hempty : p.first.name = epsilonName ↔ p.first = .epsilon :=
      ⟨hε, fun h => by rw [h]; rfl⟩
    rw [exists_fit_of_isNonTerminal_eq_false hnt' ht, hset, hset, hempty, Production.PassesOver]
    simp [hnt', ht]

/-! ### The cells of a valid grammar -/

theorem Tagged.first_eq_epsilon (h : g.Tagged) (hp : p ∈ g.productions)
    (hn : p.first.name = epsilonName) : p.first = .epsilon := by
  rw [h.first_eq hp, hn]
  rfl

section

variable (hn : g.Named) (ht : g.Tagged) (hw : g.WellFormed)
  (hterminal : terminal ∈ g.terminals ∨ terminal = endName)

include hn hterminal in
theorem ne_epsilonName_of_column : terminal ≠ epsilonName := by
  rcases hterminal with h | rfl
  · exact hn.terminals.ne_epsilonName h
  · decide

include hn ht hw hterminal in
/-- No production begins with a non-terminal that has the name of a column. -/
theorem first_name_ne_of_column (hp : p ∈ g.productions) (hnt : p.first.isNonTerminal = true) :
    p.first.name ≠ terminal := by
  obtain ⟨n, he⟩ := exists_of_isNonTerminal hnt
  have hm := ht.first_mem hp he
  rw [he]
  rcases hterminal with h | rfl
  · exact fun he => hw.disjoint _ h (he ▸ hm)
  · exact hn.nonTerminals.ne_endName hm

include hn ht hw hterminal in
/-- **What a table predicts in a cell is what the query finds, and what it
passes over.** -/
theorem predicts_iff_mem_candidates_or_passedOver :
    p ∈ g.productions ∧ g.Predicts p a terminal ↔
      p ∈ (g.candidates a terminal).1 ++ g.passedOver a terminal := by
  rw [List.mem_append, mem_candidates_iff, mem_passedOver_iff, ← and_or_left, and_assoc,
    predicts_iff_selects]
  refine and_congr_right fun hp => ?_
  have hiff : p.Selects g.knownSets.1 g.knownSets.2.1 p.antecedent terminal ↔
      (∃ f, fit g.knownSets.1 g.knownSets.2.1 terminal p = some f) ∨
        p.PassesOver g.knownSets.1 g.knownSets.2.1 terminal :=
    selects_iff_fit_or_passesOver (ne_epsilonName_of_column hn hterminal)
      (first_name_ne_of_column hn ht hw hterminal hp) (ht.first_eq_epsilon hp)
  constructor
  · intro hs
    have hrow : p.antecedent = a := hs.1
    subst hrow
    exact ⟨rfl, hiff.1 hs⟩
  · rintro ⟨rfl, hs⟩
    exact hiff.2 hs

include hn ht hw hterminal in
theorem notMem_candidates_of_mem_passedOver (hp : p ∈ g.passedOver a terminal) :
    p ∉ (g.candidates a terminal).1 := by
  intro hc
  obtain ⟨⟨hmem, -⟩, hf⟩ := mem_candidates_iff.1 hc
  exact not_passesOver_of_fit (first_name_ne_of_column hn ht hw hterminal hmem) hf
    (mem_passedOver_iff.1 hp).2

end

/-- **What a query for a cell finds, and what the cell holds.**  In a valid
grammar, tagged by its vocabulary, take a terminal or the end marker, and the
productions that the query finds together with those it passes over, which are
others.  Without error functions the cell is empty exactly if there are none of
them; otherwise it holds one of them.  The conflicts of the table are its
overwrites, and the cell is overwritten exactly if two of them differ. -/
theorem cell_of_candidates (hn : g.Named) (ht : g.Tagged)
    (hv : Diagnostic.hasErrors g.problems = false) (a : String)
    (hterminal : terminal ∈ g.terminals ∨ terminal = endName) :
    (∀ p ∈ g.passedOver a terminal, p ∉ (g.candidates a terminal).1) ∧
    ((g.buildTable [] []).1.get? a terminal = none ↔
      (g.candidates a terminal).1 ++ g.passedOver a terminal = []) ∧
    (∀ e, (g.buildTable [] []).1.get? a terminal = some e →
      ∃ p ∈ (g.candidates a terminal).1 ++ g.passedOver a terminal, e = .production p) ∧
    (g.buildTable [] []).1.conflicts =
      (overwrites g.knownSets.1 g.knownSets.2.1 [] g.productions).map Overwrite.diagnostic ∧
    ((∃ o ∈ overwrites g.knownSets.1 g.knownSets.2.1 [] g.productions,
        o.row = a ∧ o.column = terminal) ↔
      ∃ p ∈ (g.candidates a terminal).1 ++ g.passedOver a terminal,
        ∃ q ∈ (g.candidates a terminal).1 ++ g.passedOver a terminal, p ≠ q) := by
  have hmem : ∀ p, p ∈ g.productions ∧ g.Predicts p a terminal ↔
      p ∈ (g.candidates a terminal).1 ++ g.passedOver a terminal :=
    fun p => predicts_iff_mem_candidates_or_passedOver hn ht (wellFormed_iff.1 hv) hterminal
  refine ⟨fun p => notMem_candidates_of_mem_passedOver hn ht (wellFormed_iff.1 hv) hterminal,
    ?_, fun e he => ?_, ?_, ?_⟩
  · rw [get?_buildTable_nil, Option.map_eq_none_iff, lastSelecting_eq_none_iff,
      List.eq_nil_iff_forall_not_mem]
    simp only [← hmem, predicts_iff_selects, not_and]
  · obtain ⟨p, hp, hpre, rfl⟩ := mem_of_get?_buildTable_nil he
    exact ⟨p, (hmem p).1 ⟨hp, hpre⟩, rfl⟩
  · rw [buildTable_nil, Table.conflicts_ofProductions]
  · rw [exists_mem_overwrites_iff]
    simp only [← hmem, predicts_iff_selects]
    constructor
    · rintro ⟨p, hp, q, hq, hne, hsp, hsq⟩
      exact ⟨p, ⟨hp, hsp⟩, q, ⟨hq, hsq⟩, hne⟩
    · rintro ⟨p, ⟨hp, hsp⟩, q, ⟨hq, hsq⟩, hne⟩
      exact ⟨p, hp, q, hq, hne, hsp, hsq⟩

/-- A start symbol that is an optional name or a terminal: under the terminal
the query finds both, and before the end of the input it passes over the
one. -/
theorem cell_of_candidates_optional :
    let items : List ProductionItem :=
      [.sides ⟨"S", ["A"]⟩, .sides ⟨"S", ["a"]⟩, .sides ⟨"A", ["a"]⟩, .sides ⟨"A", []⟩]
    let optional : Production := ⟨"S", .nonTerminal "A", []⟩
    let plain : Production := ⟨"S", .terminal "a", []⟩
    let g : Grammar :=
      { nonTerminals := ["S", "A"], terminals := ["a"], start := some "S"
        productions := [optional, plain, ⟨"A", .terminal "a", []⟩, ⟨"A", .epsilon, []⟩] }
    build "" "" ["S", "A"] ["a"] items (some "S") = .ok g ∧
    (g.candidates "S" "a").1 = [plain, optional] ∧ g.passedOver "S" "a" = [] ∧
    (g.candidates "S" endName).1 = [] ∧ g.passedOver "S" endName = [optional] ∧
    (∃ o ∈ overwrites g.knownSets.1 g.knownSets.2.1 [] g.productions,
      o.row = "S" ∧ o.column = "a") ∧
    (g.buildTable [] []).1.get? "S" endName ≠ none := by
  intro items optional plain g
  have hbuild : build "" "" ["S", "A"] ["a"] items (some "S") = .ok g := rfl
  have hsound : g.SoundlyReachable := .build hbuild
  have hnamed := hsound.reachable.named
  have htagged := hsound.coherent.tagged
  have hvalid : Diagnostic.hasErrors g.problems = false := by decide +kernel
  have hfound : (g.candidates "S" "a").1 = [plain, optional] := by decide +kernel
  have hpassed : g.passedOver "S" endName = [optional] := by decide +kernel
  obtain ⟨-, -, -, -, hconflict⟩ :=
    @cell_of_candidates g "a" hnamed htagged hvalid "S" (.inl (by decide))
  obtain ⟨-, hempty, -⟩ := @cell_of_candidates g endName hnamed htagged hvalid "S" (.inr rfl)
  refine ⟨hbuild, hfound, by decide +kernel, by decide +kernel, hpassed, ?_, ?_⟩
  · rw [hconflict, hfound]
    exact ⟨plain, by simp, optional, by simp, by decide⟩
  · rw [Ne, hempty, hpassed]
    simp

/-- **The query alone does not tell what a cell holds**: before the end of the
input it finds no production of the start symbol, which has one there. -/
theorem exists_cell_without_candidates :
    ∃ (items : List ProductionItem) (g : Grammar),
      build "" "" ["S", "A"] ["a"] items (some "S") = .ok g ∧
      Diagnostic.hasErrors g.problems = false ∧ "S" ∈ g.nonTerminals ∧
      (g.buildTable [] []).1.get? "S" endName = some (.production ⟨"S", .nonTerminal "A", []⟩) ∧
      (g.candidates "S" endName).1 = [] :=
  ⟨[.sides ⟨"S", ["A"]⟩, .sides ⟨"A", ["a"]⟩, .sides ⟨"A", []⟩], _, rfl, by decide +kernel,
    by decide +kernel, by decide +kernel, by decide +kernel⟩

end Grammar

end PredictiveParsing
