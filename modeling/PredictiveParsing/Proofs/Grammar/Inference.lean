import PredictiveParsing.Proofs.Grammar.Consistency
import PredictiveParsing.Proofs.Grammar.Lines

/-
The vocabulary that lines imply.

* `Line.IsAntecedentIn` — a name is the antecedent of some line;
* `Grammar.IsWrittenBy` — a grammar has the antecedents of lines, their other
  names and their productions, and nothing else;
* `isWrittenBy_of_build` — declaring these names neither drops nor changes any;
* `IsWrittenBy.closed`, `IsWrittenBy.terminal_used` — every name that occurs is
  declared, on one side, and every terminal occurs;
* `Closed.problems_eq` — all that can be wrong with such a grammar;
* `ofLines_vocabulary` — the grammar that lines write.

Design notes:

* Antecedents are trimmed and may have blanks inside, other names are words and
  have none.  Both are left alone when they are declared, so that a name is the
  same in the vocabulary as in the productions.
-/
namespace PredictiveParsing

/-- The name is the antecedent of a line, wherever that stands. -/
def Line.IsAntecedentIn (texts : List String) (n : String) : Prop :=
  ∃ text ∈ texts, ∃ l, Line.parse text = .ok (some l) ∧ l.antecedent = n

namespace Grammar

variable {lines : List Line}

/-! ### The vocabulary of lines -/

/-- A list of distinct names that are trimmed and not empty is declared as it
is, if it is declared. -/
theorem eq_of_declared {names out : List String} (h : declared names = .ok out)
    (hnodup : names.Nodup) (htrim : ∀ n ∈ names, Text.trim n = n) (hne : ∀ n ∈ names, n ≠ "") :
    out = names := by
  -- A reserved name would have been refused.
  have hnames : Declarable names := by
    refine ⟨hnodup, htrim, hne, fun n hn => ?_⟩
    have := notMem_reserved_of_declared_eq_ok h n hn
    rwa [htrim n hn] at this
  exact Except.ok.inj (h.symm.trans (declared_eq_self hnames))

theorem mem_antecedentsOf_iff {n : String} :
    n ∈ antecedentsOf lines ↔ ∃ l ∈ lines, l.antecedent = n := by
  rw [antecedentsOf, List.mem_eraseDups, List.mem_map]

theorem mem_otherNamesOf_iff {n : String} : n ∈ otherNamesOf lines ↔
    (∃ l ∈ lines, n ∈ l.names) ∧ n ≠ epsilonName ∧ n ∉ antecedentsOf lines := by
  rw [otherNamesOf, List.mem_eraseDups, List.mem_filter, List.mem_flatMap]
  simp

/-- The grammar has the antecedents of the lines as non-terminals, their other
names as terminals, and their productions. -/
structure IsWrittenBy (g : Grammar) (lines : List Line) : Prop where
  nonTerminals_eq : g.nonTerminals = antecedentsOf lines
  terminals_eq : g.terminals = otherNamesOf lines
  productions_eq : g.productions = (lines.flatMap Line.sides).map g.tag

/-- What a build declares are all names of the lines. -/
theorem isWrittenBy_of_build {start name description : String} {g : Grammar}
    (hread : ∀ l ∈ lines, l.IsRead)
    (h : build name description (antecedentsOf lines) (otherNamesOf lines)
      ((lines.flatMap Line.sides).map .sides) (some start) = .ok g) : g.IsWrittenBy lines := by
  obtain ⟨hn, ht, hproductions⟩ := build_sides_cases h
  have hantecedent : ∀ n ∈ antecedentsOf lines, Text.trim n = n ∧ n ≠ "" := by
    intro n hn
    obtain ⟨l, hl, rfl⟩ := mem_antecedentsOf_iff.1 hn
    exact ⟨(hread l hl).trim_eq, (hread l hl).ne_empty⟩
  have hother : ∀ n ∈ otherNamesOf lines, Text.IsWord n := by
    intro n hn
    obtain ⟨⟨l, hl, hm⟩, -, -⟩ := mem_otherNamesOf_iff.1 hn
    obtain ⟨a, ha, hm⟩ := List.mem_flatten.1 hm
    exact ((hread l hl).isName a ha n hm).isWord
  refine ⟨?_, ?_, hproductions⟩
  · exact eq_of_declared hn (nodup_eraseDups _) (fun n hn => (hantecedent n hn).1)
      fun n hn => (hantecedent n hn).2
  · exact eq_of_declared ht (nodup_eraseDups _) (fun n hn => (hother n hn).trim_eq)
      fun n hn => (hother n hn).1

section

variable {g : Grammar} (h : g.IsWrittenBy lines)

include h

theorem IsWrittenBy.exists_of_mem {p : Production} (hp : p ∈ g.productions) :
    ∃ l ∈ lines, ∃ a ∈ l.alternatives,
      p.antecedent = l.antecedent ∧ p.names = Sides.orEpsilon a := by
  rw [h.productions_eq] at hp
  obtain ⟨s, hs, rfl⟩ := List.mem_map.1 hp
  have hsides := sides_tag g (names_ne_nil_of_mem_sides hs)
  obtain ⟨l, hl, hs⟩ := List.mem_flatMap.1 hs
  obtain ⟨a, ha, rfl⟩ := Line.exists_of_mem_sides hs
  exact ⟨l, hl, a, ha, congrArg Sides.antecedent hsides, congrArg Sides.names hsides⟩

theorem IsWrittenBy.exists_mem {l : Line} (hl : l ∈ lines) {a : List String}
    (ha : a ∈ l.alternatives) : ∃ p ∈ g.productions,
      p.antecedent = l.antecedent ∧ p.names = Sides.orEpsilon a := by
  have hsides : (g.tag ⟨l.antecedent, Sides.orEpsilon a⟩).sides = _ :=
    sides_tag g (Sides.orEpsilon_ne_nil a)
  refine ⟨_, ?_, congrArg Sides.antecedent hsides, congrArg Sides.names hsides⟩
  rw [h.productions_eq]
  exact List.mem_map_of_mem (List.mem_flatMap.2 ⟨l, hl, List.mem_map_of_mem ha⟩)

/-- A name of a consequent other than `ε` stands in a line. -/
theorem IsWrittenBy.mem_terminals_iff {p : Production} (hp : p ∈ g.productions) {n : String}
    (hn : n ∈ p.names) (hne : n ≠ epsilonName) :
    n ∈ g.terminals ↔ n ∉ g.nonTerminals := by
  obtain ⟨l, hl, a, ha, -, hnames⟩ := h.exists_of_mem hp
  rw [hnames, Sides.mem_orEpsilon_iff hne] at hn
  have hwritten : ∃ l ∈ lines, n ∈ l.names := ⟨l, hl, List.mem_flatten.2 ⟨a, ha, hn⟩⟩
  rw [h.terminals_eq, h.nonTerminals_eq, mem_otherNamesOf_iff, and_iff_right hwritten,
    and_iff_right hne]

theorem IsWrittenBy.closed (hn : g.Named) : g.Closed := by
  refine ⟨hn, tagged_of_productions_eq h.productions_eq, ?_, ?_, ?_⟩
  · intro n ht
    rw [h.terminals_eq] at ht
    rw [h.nonTerminals_eq]
    exact (mem_otherNamesOf_iff.1 ht).2.2
  · intro p hp
    obtain ⟨l, hl, -, -, ha, -⟩ := h.exists_of_mem hp
    rw [h.nonTerminals_eq, ha]
    exact mem_antecedentsOf_iff.2 ⟨l, hl, rfl⟩
  · intro p hp n hm
    by_cases hne : n = epsilonName
    · exact .inl hne
    · by_cases ht : n ∈ g.nonTerminals
      · exact .inr (.inl ht)
      · exact .inr (.inr ((h.mem_terminals_iff hp hm hne).2 ht))

/-- Every terminal stands in a line, so it is used. -/
theorem IsWrittenBy.terminal_used : ∀ n ∈ g.terminals, n ∈ g.usedNames := by
  intro n ht
  rw [h.terminals_eq] at ht
  obtain ⟨⟨l, hl, hm⟩, hne, -⟩ := mem_otherNamesOf_iff.1 ht
  obtain ⟨a, ha, hm⟩ := List.mem_flatten.1 hm
  obtain ⟨p, hp, -, hnames⟩ := h.exists_mem hl ha
  refine mem_usedNames_iff.2 ⟨p, hp, ?_⟩
  rwa [hnames, Sides.mem_orEpsilon_iff hne]

end

/-! ### What can be wrong with it -/

/-- What can be wrong with a closed grammar that uses its terminals: parts are
missing, or the start symbol, or a non-terminal is not used. -/
theorem Closed.problems_eq {g : Grammar} (h : g.Closed)
    (hused : ∀ n ∈ g.terminals, n ∈ g.usedNames) :
    g.problems = g.missingParts ++ g.startProblems ++ g.unusedNonTerminals := by
  have hdouble : g.doubleDeclarations = [] := by
    simpa [doubleDeclarations] using h.disjoint
  have hterminals : g.unusedTerminals = [] := by
    simpa [unusedTerminals] using hused
  have hantecedents : g.undeclaredAntecedents = [] := by
    simpa [undeclaredAntecedents] using h.antecedent_mem
  rw [problems, hdouble, hterminals, hantecedents,
    undeclaredSymbols_eq_nil_iff.2 h.symbol_declared]
  simp only [List.append_nil]

theorem kind_of_mem_missingParts {g : Grammar} {d : Diagnostic} (h : d ∈ g.missingParts) :
    d.kind ∈ [IssueKind.noProductions, .noTerminals, .noNonTerminals] := by
  simp only [missingParts, List.mem_append] at h
  rcases h with (h | h) | h <;> split at h <;> simp at h <;> simp [h]

theorem kind_of_mem_startProblems {g : Grammar} {d : Diagnostic} (h : d ∈ g.startProblems) :
    d.kind ∈ [IssueKind.noStartSymbol, .startNotDeclared] := by
  rw [startProblems] at h
  split at h
  · simp [List.mem_singleton.1 h]
  · split at h
    · cases h
    · simp [List.mem_singleton.1 h, Diagnostic.about]

theorem kind_of_mem_unusedNonTerminals {g : Grammar} {d : Diagnostic}
    (h : d ∈ g.unusedNonTerminals) : d.kind = .unusedNonTerminal := by
  obtain ⟨n, -, rfl⟩ := List.mem_map.1 h
  rfl

/-! ### The grammar that lines write -/

/-- **The vocabulary of lines is exact.**  The non-terminals are the antecedents,
and each has a production.  Any other symbol of a consequent but `ε` is a
terminal, whether it stands before or behind the lines of the antecedents, and
no name is both.  All that validation can find is a missing part, a start symbol
that is missing or is no antecedent, and antecedents that are not used. -/
theorem ofLines_vocabulary {start name description : String} {texts : List String} {g : Grammar}
    (h : ofLines start texts name description = .ok g) :
    (∀ n, n ∈ g.nonTerminals ↔ Line.IsAntecedentIn texts n) ∧
    (∀ p ∈ g.productions, p.antecedent ∈ g.nonTerminals) ∧
    (∀ n ∈ g.nonTerminals, ∃ p ∈ g.productions, p.antecedent = n) ∧
    (∀ text ∈ texts, ∀ l, Line.parse text = .ok (some l) → ∀ n ∈ l.names, n ≠ epsilonName →
      (n ∈ g.terminals ↔ ¬ Line.IsAntecedentIn texts n)) ∧
    (∀ p ∈ g.productions, ∀ s ∈ p.consequent, s ≠ .epsilon →
      (s.name ∈ g.terminals ↔ ¬ Line.IsAntecedentIn texts s.name)) ∧
    (∀ n ∈ g.terminals, n ∉ g.nonTerminals) ∧
    ∀ d ∈ g.validate.1, d.kind ∈ [IssueKind.noProductions, .noTerminals, .noNonTerminals,
      .noStartSymbol, .startNotDeclared, .unusedNonTerminal] := by
  obtain ⟨lines, hlines, hbuild⟩ := ofLines_cases h
  have hwritten := isWrittenBy_of_build (forall_isRead hlines) hbuild
  have hclosed := hwritten.closed (Reachable.named (.build hbuild))
  have hantecedent : ∀ n, n ∈ g.nonTerminals ↔ Line.IsAntecedentIn texts n := by
    intro n
    rw [hwritten.nonTerminals_eq, mem_antecedentsOf_iff]
    constructor
    · rintro ⟨l, hl, hn⟩
      obtain ⟨text, ht, hparse⟩ := (hlines l).1 hl
      exact ⟨text, ht, l, hparse, hn⟩
    · rintro ⟨text, ht, l, hparse, hn⟩
      exact ⟨l, (hlines l).2 ⟨text, ht, hparse⟩, hn⟩
  have hterminal : ∀ p ∈ g.productions, ∀ n ∈ p.names, n ≠ epsilonName →
      (n ∈ g.terminals ↔ ¬ Line.IsAntecedentIn texts n) := by
    intro p hp n hn hne
    rw [hwritten.mem_terminals_iff hp hn hne, hantecedent]
  refine ⟨hantecedent, hclosed.antecedent_mem, ?_, ?_, ?_, hclosed.disjoint, ?_⟩
  · intro n hn
    rw [hwritten.nonTerminals_eq] at hn
    obtain ⟨l, hl, rfl⟩ := mem_antecedentsOf_iff.1 hn
    obtain ⟨a, ha⟩ := List.exists_mem_of_ne_nil _ (forall_isRead hlines l hl).alternatives_ne_nil
    obtain ⟨p, hp, hpa, -⟩ := hwritten.exists_mem hl ha
    exact ⟨p, hp, hpa⟩
  · intro text ht l hparse n hn hne
    -- Each alternative of a line is the consequent of a production.
    obtain ⟨a, ha, hn⟩ := List.mem_flatten.1 hn
    obtain ⟨p, hp, -, hnames⟩ := hwritten.exists_mem ((hlines l).2 ⟨text, ht, hparse⟩) ha
    refine hterminal p hp n ?_ hne
    rwa [hnames, Sides.mem_orEpsilon_iff hne]
  · intro p hp s hs hne
    refine hterminal p hp s.name (List.mem_map_of_mem hs) fun hε => hne ?_
    rw [hclosed.tagged.eq_symbol hp hs, hε]
    rfl
  · intro d hd
    have hd' : d ∈ g.problems := hd
    rw [hclosed.problems_eq hwritten.terminal_used, List.mem_append, List.mem_append] at hd'
    rcases hd' with (hd' | hd') | hd'
    · exact List.mem_append_left [.noStartSymbol, .startNotDeclared, .unusedNonTerminal]
        (kind_of_mem_missingParts hd')
    · have hkind := kind_of_mem_startProblems hd'
      simp only [List.mem_cons, List.not_mem_nil, or_false] at hkind
      rcases hkind with hkind | hkind <;> simp [hkind]
    · simp [kind_of_mem_unusedNonTerminals hd']

/-- A name that is an antecedent only later, an antecedent that spells `ε`, and
the lines of a comment alone; with them all six kinds are found. -/
theorem ofLines_vocabulary_spelled :
    let texts := ["S -> A eps b", "A -> b |", " Eps -> A"]
    let g : Grammar :=
      { nonTerminals := ["S", "A", "Eps"], terminals := ["b"], start := some "T"
        productions := [⟨"S", .nonTerminal "A", [.epsilon, .terminal "b"]⟩,
          ⟨"A", .terminal "b", []⟩, ⟨"A", .epsilon, []⟩, ⟨"Eps", .nonTerminal "A", []⟩] }
    let empty : Grammar := {}
    ofLines "T" texts "" "" = .ok g ∧ ofLines " " ["// nothing"] "" "" = .ok empty ∧
    Line.IsAntecedentIn texts "A" ∧ ¬ Line.IsAntecedentIn texts "b" ∧
    (∀ d ∈ g.validate.1, d.kind ∈ [IssueKind.noProductions, .noTerminals, .noNonTerminals,
      .noStartSymbol, .startNotDeclared, .unusedNonTerminal]) ∧
    g.validate.1.map (·.kind) = [.startNotDeclared, .unusedNonTerminal, .unusedNonTerminal] ∧
    empty.validate.1.map (·.kind) =
      [.noProductions, .noTerminals, .noNonTerminals, .noStartSymbol] := by
  intro texts g empty
  have htexts : ofLines "T" texts "" "" = .ok g := by decide +kernel
  obtain ⟨hnonTerminal, -, -, -, hterminal, -, hkinds⟩ := ofLines_vocabulary htexts
  have hA : Line.IsAntecedentIn texts "A" := (hnonTerminal "A").1 (by decide)
  have hb : ¬ Line.IsAntecedentIn texts "b" :=
    (hterminal ⟨"A", .terminal "b", []⟩ (by decide) (.terminal "b") (by decide) (by decide)).1
      (by decide)
  exact ⟨htexts, by decide +kernel, hA, hb, hkinds, by decide +kernel, by decide +kernel⟩

end Grammar

end PredictiveParsing
