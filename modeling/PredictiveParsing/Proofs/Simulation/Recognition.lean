import PredictiveParsing.Proofs.Grammar.Reachable
import PredictiveParsing.Proofs.Sets.Lookahead
import PredictiveParsing.Proofs.Simulation.Leftmost
import PredictiveParsing.Proofs.Simulation.Outcome

/-
Tables without conflicts recognize the language of the grammar.

In a valid grammar whose vanishing non-terminals come last, a table without
conflicts makes the machine stop on every input, and accept exactly the words
that the start symbol generates.

* `ends_accepted_of_yields` — what a guarded stack yields is accepted;
* `stops` — from every stack and input the machine stops;
* `run_accepts_iff_generates` — both together, for whole runs.

Design notes:

* Without conflicts a cell holds every production that selects it.  A
  derivation therefore tells the machine's moves, and so does a chain of first
  symbols; no measure on states is needed.  Stopping goes by recursion on the
  input, on the stack and on such chains.
-/
namespace PredictiveParsing

namespace Grammar

/-- The table that rests on the sets of the productions. -/
def freshTable (g : Grammar) : Table :=
  .ofProductions g g.solveFirst.1 g.followSets

variable {g : Grammar}

theorem Coherent.buildTable_eq (h : g.Coherent) : (g.buildTable [] []).1 = g.freshTable := by
  rw [buildTable, knownSets_eq, h.knownFirst, h.knownSets.2]
  rfl

/-- A cell of that table holds a production that selects it. -/
theorem production_of_get?_freshTable {row column : String} {e : Entry}
    (he : g.freshTable.get? row column = some e) :
    ∃ p ∈ g.productions, p.antecedent = row ∧ e = .production p ∧
      (column ∈ p.firstSet g.solveFirst.1 ∧ column ≠ epsilonName ∨
        epsilonName ∈ p.firstSet g.solveFirst.1 ∧ column ∈ g.followSets.of p.antecedent) := by
  obtain ⟨p, hp, hs, rfl⟩ := Table.mem_of_get?_ofProductions he
  obtain ⟨hrow, hcolumn⟩ := Production.selects_iff.1 hs
  exact ⟨p, hp, hrow, rfl, hcolumn⟩

theorem get?_freshTable_ne (row column : String) (f : ErrorFunction) :
    g.freshTable.get? row column ≠ some (.errorFunction f) :=
  Table.get?_ofProductions_ne g row column f

/-- What replaces the antecedent on the stack is the word of the production. -/
theorem Tame.yield_eq (h : g.Tame) {p : Production} (hp : p ∈ g.productions) :
    p.yield.map Symbol.name = p.word := by
  refine (word_eq_of_notMem_yield fun he => ?_).symm
  rcases h.word_cases hp with ⟨hn, -⟩ | ⟨hne, -⟩
  · -- Then `ε` is all of the consequent, and nothing replaces the antecedent.
    have hfirst : p.first = .epsilon := by
      rw [h.tagged.first_eq hp, show p.first.name = epsilonName from (List.cons.inj hn).1]
      rfl
    have hrest : p.rest = [] := List.map_eq_nil_iff.1 (List.cons.inj hn).2
    simp [Production.yield, Production.isEpsilon, hfirst, hrest, Symbol.isEpsilon] at he
  · exact hne (mem_names_of_mem_yield he)

/-- The lookahead of what is left selects the production to apply. -/
theorem Tame.selects (h : g.Tame) {p : Production} (hp : p ∈ g.productions) {x y : List String}
    (hx : g.Yields p.word x) (hy : lookahead y ∈ g.followSets.of p.antecedent) :
    p.Selects g.solveFirst.1 g.followSets p.antecedent (lookahead (x ++ y)) := by
  have hlead := h.lead_mem_firstSet hp hx
  refine Production.selects_iff.2 ⟨rfl, ?_⟩
  cases x with
  | nil => exact .inr ⟨hlead, hy⟩
  | cons a x =>
    have ha : a ∈ g.terminals := h.wellFormed.mem_terminals_of_yields hx
      (fun _ hb => h.wellFormed.word_declared hp hb) a List.mem_cons_self
    exact .inl ⟨hlead, h.named.terminals.ne_epsilonName ha⟩

theorem exists_lookahead (w : List String) : ∃ later, w ++ [endName] = lookahead w :: later := by
  cases w with
  | nil => exact ⟨[], rfl⟩
  | cons a w => exact ⟨w ++ [endName], rfl⟩

section

variable (h : g.Tame) (hc : g.freshTable.conflicts = [])

include h

theorem Tame.endName_notMem : endName ∉ g.nonTerminals :=
  h.named.nonTerminals.endName_notMem

include hc

/-! ### Words are accepted -/

/-- **What a guarded stack yields is accepted.** -/
theorem ends_accepted_of_yields {stack w : List String} (hy : g.Yields stack w)
    (hs : g.Guarded stack) :
    Ends g g.freshTable (· = .accepted) (stack ++ [endName]) (w ++ [endName]) := by
  induction hy with
  | nil => exact .accept rfl
  | keep ha _ ih =>
    -- A terminal stays in the word, and is matched.
    have hterminal := (hs.declared _ List.mem_cons_self).resolve_left ha
    exact .consume ha (h.named.terminals.ne_endName hterminal) (ih hs.tail)
  | expand hr hy ih =>
    obtain ⟨p, hp, rfl, rfl⟩ := hr
    have hmem := h.wellFormed.antecedent_mem p hp
    obtain ⟨x, y, rfl, hx, hbelow⟩ := yields_append_iff.1 hy
    -- The lookahead selects the production, and without conflicts its cell holds it.
    have hselects := h.selects hp hx (hs.lookahead_mem [] _ _ rfl hmem y hbelow)
    have hrest := ih (hs.expand h hp)
    obtain ⟨later, hlater⟩ := exists_lookahead (x ++ y)
    rw [hlater, List.append_assoc] at hrest
    rw [hlater]
    refine .expand h.endName_notMem hmem (Table.get?_of_selects hc hp hselects) ?_
    rw [h.yield_eq hp]
    exact hrest

/-! ### The machine stops -/

/-- Where the lookahead can begin the non-terminal on top, the machine gets to
consume it. -/
theorem stops_of_begins {n x : String} (hb : g.Begins n x) (hx : x ≠ epsilonName)
    {later : List String} (hlater : ∀ stack, Stops g g.freshTable stack later)
    (below : List String) : Stops g g.freshTable (n :: below) (x :: later) := by
  induction hb generalizing below with
  | @direct p hp hf =>
    have hselects : p.Selects g.solveFirst.1 g.followSets p.antecedent p.first.name :=
      Production.selects_iff.2 ⟨rfl, .inl ⟨mem_firstSet_iff.2 (.inl ⟨hf, rfl⟩), hx⟩⟩
    refine .expand h.endName_notMem (h.wellFormed.antecedent_mem p hp)
      (Table.get?_of_selects hc hp hselects) ?_
    -- Now the lookahead is on top, unless something stops the machine.
    rcases h.word_cases hp with ⟨hn, -⟩ | ⟨-, hw⟩
    · exact absurd (List.cons.inj hn).1 hx
    · rw [h.yield_eq hp, hw]
      exact stops_cons h.endName_notMem get?_freshTable_ne
        (fun q hn => absurd hn (h.first_notMem hp hf)) fun _ => hlater _
  | @through p m x hp hf hb ih =>
    have hfirst : x ∈ p.firstSet g.solveFirst.1 :=
      mem_firstSet_iff.2 (.inr ⟨m, hf, mem_solveFirst_iff.2 hb⟩)
    have hselects : p.Selects g.solveFirst.1 g.followSets p.antecedent x :=
      Production.selects_iff.2 ⟨rfl, .inl ⟨hfirst, hx⟩⟩
    refine .expand h.endName_notMem (h.wellFormed.antecedent_mem p hp)
      (Table.get?_of_selects hc hp hselects) ?_
    have hyield : p.yield.map Symbol.name = m :: p.rest.map Symbol.name := by
      have hne : p.isEpsilon = false := by simp [Production.isEpsilon, hf, Symbol.isEpsilon]
      rw [Production.yield, hne, Production.consequent, hf]
      rfl
    rw [hyield]
    exact ih hx _

/-- Where the non-terminal on top can vanish and the lookahead can follow it,
the machine gets to the stack below. -/
theorem stops_of_vanishes {n x : String} (hb : g.Begins n epsilonName)
    (hx : x ∈ g.followSets.of n) {below later : List String}
    (hbelow : Stops g g.freshTable below (x :: later)) :
    Stops g g.freshTable (n :: below) (x :: later) := by
  generalize he : epsilonName = e at hb
  induction hb with
  | @direct p hp hf =>
    have hselects : p.Selects g.solveFirst.1 g.followSets p.antecedent x :=
      Production.selects_iff.2 ⟨rfl, .inr ⟨mem_firstSet_iff.2 (.inl ⟨hf, he.symm⟩), hx⟩⟩
    refine .expand h.endName_notMem (h.wellFormed.antecedent_mem p hp)
      (Table.get?_of_selects hc hp hselects) ?_
    rcases h.word_cases hp with ⟨-, hw⟩ | ⟨hne, -⟩
    · rw [h.yield_eq hp, hw]
      exact hbelow
    · exact absurd (he ▸ List.mem_cons_self) hne
  | @through p m e hp hf hb ih =>
    subst he
    have hfirst : epsilonName ∈ p.firstSet g.solveFirst.1 :=
      mem_firstSet_iff.2 (.inr ⟨m, hf, mem_solveFirst_iff.2 hb⟩)
    have hselects : p.Selects g.solveFirst.1 g.followSets p.antecedent x :=
      Production.selects_iff.2 ⟨rfl, .inr ⟨hfirst, hx⟩⟩
    have hmem := h.first_mem hp hf
    have hnames := h.names_eq_of_vanishes hp hf (h.yields_nil_of_begins hb)
    have hconsequent : p.consequent = [] ++ [.nonTerminal m] := by
      rw [h.tagged.consequent_eq hp, hnames]
      simp [h.named.symbol_of_mem hmem]
    refine .expand h.endName_notMem (h.wellFormed.antecedent_mem p hp)
      (Table.get?_of_selects hc hp hselects) ?_
    have hyield : p.yield.map Symbol.name = [m] := by
      rw [h.yield_eq hp, Production.word, hnames]
      simp [h.named.nonTerminals.ne_epsilonName hmem]
    rw [hyield]
    exact ih (mem_solveFollow_of_last hp hconsequent hx) rfl

/-- **From every stack and input the machine stops.** -/
theorem stops (stack input : List String) : Stops g g.freshTable stack input := by
  induction input generalizing stack with
  | nil => exact stops_nil_input stack
  | cons x later ihInput =>
    induction stack with
    | nil => exact stops_nil _
    | cons top below ihStack =>
      -- A production applied gets the machine to the next input, or to the stack below.
      by_cases hcell : ∃ p, g.freshTable.get? top x = some (.production p)
      · obtain ⟨p, he⟩ := hcell
        obtain ⟨p, hp, rfl, -, ⟨hfirst, hne⟩ | ⟨hempty, hfollow⟩⟩ :=
          production_of_get?_freshTable he
        · exact stops_of_begins h hc (begins_iff_exists.2 ⟨p, hp, rfl, hfirst⟩) hne ihInput below
        · exact stops_of_vanishes h hc (begins_iff_exists.2 ⟨p, hp, rfl, hempty⟩) hfollow ihStack
      · exact stops_cons h.endName_notMem get?_freshTable_ne (fun p _ he => absurd ⟨p, he⟩ hcell)
          fun _ => ihInput below

end

end Grammar

namespace Simulation

/-- **LL(1) recognition.**  Take a valid grammar on which no replacement of the
vocabulary failed and whose vanishing non-terminals come last.  If its table
has no conflict, a run on any admitted input ends: accepted if the start symbol
generates the input, and rejected otherwise. -/
theorem run_accepts_iff_generates {g : Grammar} (hg : g.SoundlyReachable)
    (hvalid : Diagnostic.hasErrors g.problems = false) (hv : g.VanishesAtEnd)
    (hc : (g.buildTable [] []).1.isConflictFree = true) {tokens : List String} {s₀ : Simulation}
    (hstart : Simulation.start (g.buildTable [] []).2 (g.buildTable [] []).1 tokens = .ok s₀) :
    ∃ start records s, g.start = some start ∧ s₀.run none = some (records, s) ∧
      (s.status = .accepted ∧ g.Generates start (tokens.filter (· ≠ "")) ∨
        (∃ message, s.status = .rejected ∧ s.message = some message) ∧
          ¬ g.Generates start (tokens.filter (· ≠ ""))) := by
  have hcoherent := hg.coherent
  have hn := hg.reachable.named
  have hw := Grammar.wellFormed_iff.1 hvalid
  have htame : g.Tame := ⟨hn, hcoherent.tagged, hw, hv⟩
  rw [hcoherent.buildTable_eq, Table.isConflictFree, List.isEmpty_iff] at hc
  obtain ⟨start, hs, hmem⟩ := hw.start_mem
  obtain ⟨hnts, -, hstart_eq⟩ := Grammar.buildTable_frame g [] []
  have hfresh := isFresh_of_start hstart
  -- Where the machine stands, and what it runs with.
  obtain ⟨hg₀, ht₀, hstack, hinput⟩ : s₀.grammar = (g.buildTable [] []).2 ∧
      s₀.table = g.freshTable ∧ s₀.current.stack = [start] ++ [endName] ∧
      s₀.current.input = tokens.filter (· ≠ "") ++ [endName] := by
    obtain ⟨start', hs', -, rfl⟩ := start_eq_ok hstart
    obtain rfl : start = start' := Option.some.inj (hs.symm.trans (hstart_eq ▸ hs'))
    exact ⟨rfl, hcoherent.buildTable_eq, rfl, rfl⟩
  have hbegun : s₀.isFinished = false := by
    rw [isFinished, hfresh.status_eq]
    rfl
  obtain ⟨r, hr, -⟩ := ((Grammar.stops htame hc _ _).of_nonTerminals hnts).runToEnd hg₀ ht₀ hstack
    hinput hbegun
  obtain ⟨hfinal, n, hstepped⟩ := runToEnd_eq_some_iff.1 hr
  have hrun : s₀.run none = some (r.history.drop s₀.records.length, r) := by
    rw [run, hr]
    rfl
  refine ⟨start, _, r, hs, hrun, ?_⟩
  have haccepted : r.status = .accepted ↔ g.Generates start (tokens.filter (· ≠ "")) := by
    constructor
    · intro ha
      rw [← hstepped] at ha
      have hquiet := quiet_stepped hfresh.records_eq
        (fun row column f => ht₀ ▸ Grammar.get?_freshTable_ne row column f) n
      exact (generates_of_accepted hstart hw hn hs hquiet ha).2
    · intro hgen
      have hends := Grammar.ends_accepted_of_yields htame hc (Grammar.generates_iff.1 hgen)
        (Grammar.guarded_start hs hmem)
      obtain ⟨r', hr', ha⟩ := (hends.of_nonTerminals hnts).runToEnd hg₀ ht₀ hstack hinput hbegun
      obtain rfl : r = r' := Option.some.inj (hr.symm.trans hr')
      exact ha
  have hexplained : r.IsExplained := hstepped ▸ hfresh.isExplained.stepped n
  rw [← haccepted, ← hexplained.status_eq_rejected_iff]
  rw [isFinished] at hfinal
  cases hst : r.status with
  | notStarted => simp [hst, Status.isFinal] at hfinal
  | running => simp [hst, Status.isFinal] at hfinal
  | accepted => simp
  | rejected => simp

/-- An `a` and a list of `b`: the list is a non-terminal of its own, which can
vanish. -/
theorem run_accepts_iff_generates_list :
    let items : List ProductionItem := [.sides ⟨"S", ["A", "X"]⟩, .sides ⟨"A", ["a"]⟩,
      .sides ⟨"X", ["b", "X"]⟩, .sides ⟨"X", []⟩]
    let g : Grammar :=
      { nonTerminals := ["S", "A", "X"], terminals := ["a", "b"], start := some "S"
        productions := [⟨"S", .nonTerminal "A", [.nonTerminal "X"]⟩, ⟨"A", .terminal "a", []⟩,
          ⟨"X", .terminal "b", [.nonTerminal "X"]⟩, ⟨"X", .epsilon, []⟩] }
    Grammar.build "" "" ["S", "A", "X"] ["a", "b"] items (some "S") = .ok g ∧
    g.VanishesAtEnd ∧ (g.buildTable [] []).1.isConflictFree = true ∧
    ∃ s₀, Simulation.start (g.buildTable [] []).2 (g.buildTable [] []).1 ["a", "b", "b"] = .ok s₀ ∧
      ∃ start records s, g.start = some start ∧ s₀.run none = some (records, s) ∧
        (s.status = .accepted ∧ g.Generates start ["a", "b", "b"] ∨
          (∃ message, s.status = .rejected ∧ s.message = some message) ∧
            ¬ g.Generates start ["a", "b", "b"]) := by
  intro items g
  have hbuild : Grammar.build "" "" ["S", "A", "X"] ["a", "b"] items (some "S") = .ok g := rfl
  have hv : g.VanishesAtEnd :=
    Grammar.vanishesAtEnd_of_list ["X"] (by decide +kernel) (by decide +kernel)
      (by decide +kernel) (by decide +kernel)
  have hc : (g.buildTable [] []).1.isConflictFree = true := by decide +kernel
  refine ⟨hbuild, hv, hc, _, rfl, ?_⟩
  exact @run_accepts_iff_generates g (.build hbuild) (by decide +kernel) hv hc ["a", "b", "b"] _ rfl

end Simulation

end PredictiveParsing
