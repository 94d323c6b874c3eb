import PredictiveParsing.Proofs.Simulation.Leftmost
import PredictiveParsing.Proofs.Table.Prediction

/-
What can lie on the stack.

A valid grammar declares every name it uses except `ε`, and that one may stand
anywhere in a consequent.  Alone it is the empty word and is not pushed; beside
other names it is pushed like them.  Then it stays: it is no non-terminal, and
no input has it in front.

* `Production.MixesEpsilon` — a consequent with `ε` beside other symbols;
* `epsilonName_mem_yield_iff` — these are the ones that push `ε`;
* `Stocked` — what lies above the end marker;
* `Stocked.step` — every step keeps it up;
* `performAll_stack` — the stack after any commands;
* `exists_epsilon_on_stack` — a valid grammar that gets `ε` on the stack.
-/
namespace PredictiveParsing

/-- The consequent has `ε` beside other symbols. -/
def Production.MixesEpsilon (p : Production) : Prop :=
  epsilonName ∈ p.names ∧ 1 < p.size

instance (p : Production) : Decidable p.MixesEpsilon :=
  inferInstanceAs (Decidable (_ ∧ _))

namespace Grammar

variable {g : Grammar} {p : Production}

/-- In a valid grammar only the empty word is called `ε`. -/
theorem WellFormed.eq_epsilon_of_name (h : g.WellFormed) (hg : g.Named) (hp : p ∈ g.productions)
    {s : Symbol} (hs : s ∈ p.consequent) (hn : s.name = epsilonName) : s = .epsilon := by
  rcases h.symbol_declared p hp s hs with he | hm | hm
  · exact Symbol.isEpsilon_iff.1 he
  · exact absurd hn (hg.nonTerminals.ne_epsilonName hm)
  · exact absurd hn (hg.terminals.ne_epsilonName hm)

/-- `ε` gets into a sentential form by the consequents that mix it. -/
theorem WellFormed.epsilonName_mem_yield_iff (h : g.WellFormed) (hg : g.Named)
    (hp : p ∈ g.productions) : epsilonName ∈ p.yield.map Symbol.name ↔ p.MixesEpsilon := by
  have hsize : p.isEpsilon = true ↔ epsilonName ∈ p.names ∧ p.rest = [] := by
    rw [Production.isEpsilon_iff]
    constructor
    · rintro ⟨hf, hr⟩
      exact ⟨by simp [Production.names, Production.consequent, hf, Symbol.name], hr⟩
    · rintro ⟨hm, hr⟩
      have hn : p.first.name = epsilonName := by
        simpa [Production.names, Production.consequent, hr, eq_comm] using hm
      exact ⟨h.eq_epsilon_of_name hg hp (by simp [Production.consequent]) hn, hr⟩
  have hrest : 1 < p.size ↔ p.rest ≠ [] := by
    simp [Production.size, Production.consequent, List.length_pos_iff]
  rw [Production.yield, Production.MixesEpsilon, hrest]
  split
  · next he => simp [(hsize.1 he).2]
  · next he =>
    refine ⟨fun hm => ⟨hm, fun hr => he (hsize.2 ⟨hm, hr⟩)⟩, fun hm => hm.1⟩

end Grammar

namespace Simulation

/-- Above the end marker lie declared names and `ε`, the latter exactly if a
production that mixes it was applied; no `ε` is in the input. -/
structure Stocked (g : Grammar) (s : Simulation) (names : List String) : Prop where
  stack_eq : s.current.stack = names ++ [endName]
  declared : ∀ n ∈ names, n ∈ g.nonTerminals ∨ n ∈ g.terminals ∨ n = epsilonName
  epsilon_iff : epsilonName ∈ names ↔ ∃ p ∈ s.applied, p.MixesEpsilon
  notMem_input : epsilonName ∉ s.current.input

section

variable {g : Grammar} {s t : Simulation} {names : List String}

theorem Stocked.keep (h : Stocked g s names) (ha : t.applied = s.applied)
    (hs : t.current.stack = s.current.stack) (hi : t.current.input = s.current.input) :
    Stocked g t names :=
  ⟨hs.trans h.stack_eq, h.declared, ha ▸ h.epsilon_iff, hi ▸ h.notMem_input⟩

/-- A production replaces a non-terminal, which is not `ε`, by its names. -/
theorem Stocked.expand {p : Production} {below : List String}
    (h : Stocked g s (p.antecedent :: below)) (hw : g.WellFormed) (hg : g.Named)
    (hp : p ∈ g.productions) (hn : p.antecedent ∈ g.nonTerminals)
    (ha : t.applied = s.applied ++ [p])
    (hs : t.current.stack = p.yield.map Symbol.name ++ below ++ [endName])
    (hi : t.current.input = s.current.input) :
    Stocked g t (p.yield.map Symbol.name ++ below) := by
  have hdeclared := List.forall_mem_cons.1 h.declared
  refine ⟨hs, fun n hm => ?_, ?_, hi ▸ h.notMem_input⟩
  · rcases List.mem_append.1 hm with hm | hm
    · rcases hw.name_declared hp (Grammar.mem_names_of_mem_yield hm) with he | hd | hd
      · exact .inr (.inr he)
      · exact .inl hd
      · exact .inr (.inl hd)
    · exact hdeclared.2 n hm
  · have hbelow : epsilonName ∈ below ↔ ∃ q ∈ s.applied, q.MixesEpsilon := by
      rw [← h.epsilon_iff, List.mem_cons,
        or_iff_right (hg.nonTerminals.ne_epsilonName hn).symm]
    rw [List.mem_append, hw.epsilonName_mem_yield_iff hg hp, hbelow, ha]
    simp only [List.mem_append, List.mem_singleton, or_and_right, exists_or, exists_eq_left]
    exact or_comm

/-- A match takes a name away that stands in the input, so it is not `ε`. -/
theorem Stocked.consume {a : String} {later : List String} (h : Stocked g s (a :: names))
    (hin : s.current.input = a :: later) (ha : t.applied = s.applied)
    (hs : t.current.stack = names ++ [endName]) (hi : t.current.input = later) :
    Stocked g t names := by
  have hinput := h.notMem_input
  rw [hin, List.mem_cons, not_or] at hinput
  refine ⟨hs, (List.forall_mem_cons.1 h.declared).2, ?_, hi ▸ hinput.2⟩
  rw [ha, ← h.epsilon_iff, List.mem_cons, or_iff_right hinput.1]

/-- **Every step keeps the stack stocked**, if the table holds productions of
the grammar and nothing else. -/
theorem Stocked.step (h : Stocked g s names) (hw : g.WellFormed) (hg : g.Named)
    (hnts : s.grammar.nonTerminals = g.nonTerminals)
    (hcells : ∀ row column e, s.table.get? row column = some e →
      ∃ p ∈ g.productions, p.antecedent = row ∧ e = .production p)
    (hf : s.isFinished = false) : ∃ names, Stocked g s.step.2 names := by
  obtain ⟨top, below, hst⟩ : ∃ top below, names ++ [endName] = top :: below :=
    List.exists_cons_of_ne_nil (by simp)
  have hstack := h.stack_eq.trans hst
  cases hin : s.current.input with
  | nil =>
    have hnext : Move.next s.grammar s.table s.current =
        { stack := top :: below, input := [], verdict := some ⟨.rejected, some ""⟩,
          action := "Error" } := by
      rw [Move.next, hstack, hin]
    obtain ⟨-, hs, hi, ha⟩ := step_fields hf hnext
    exact ⟨names, h.keep (by simpa using ha) (hs.trans hstack.symm) (hi.trans hin.symm)⟩
  | cons ahead later =>
    have hnext : Move.next s.grammar s.table s.current =
        Move.decide s.grammar s.table top below ahead later := by
      rw [Move.next, hstack, hin]
    -- Whatever is replaced or matched lies above the end marker.
    have habove : top ≠ endName → ∃ names', names = top :: names' ∧ names' ++ [endName] = below := by
      intro hne
      cases names with
      | nil => exact absurd (List.cons.inj hst).1.symm hne
      | cons a names' =>
        obtain ⟨rfl, hb⟩ := List.cons.inj hst
        exact ⟨names', rfl, hb⟩
    rcases Move.decide_cases s.grammar s.table top below ahead later with
      ⟨-, -, hd⟩ | ⟨_, hd⟩ | ⟨p, hn, he, hd⟩ | ⟨f, -, he, -⟩ | ⟨rfl, hne, -, hd⟩
    · obtain ⟨-, hs, hi, ha⟩ := step_fields hf (hnext.trans hd)
      exact ⟨names, h.keep (by simpa using ha) (hs.trans hstack.symm) (hi.trans hin.symm)⟩
    · obtain ⟨-, hs, hi, ha⟩ := step_fields hf (hnext.trans hd)
      exact ⟨names, h.keep (by simpa using ha) (hs.trans hstack.symm) (hi.trans hin.symm)⟩
    · obtain ⟨-, hs, hi, ha⟩ := step_fields hf (hnext.trans hd)
      obtain ⟨q, hq, rfl, heq⟩ := hcells _ _ _ he
      obtain rfl := Entry.production.inj heq
      rw [hnts] at hn
      obtain ⟨names', rfl, rfl⟩ := habove (hg.nonTerminals.ne_endName hn)
      exact ⟨_, h.expand hw hg hq hn ha (by rw [hs, List.append_assoc]) (hi.trans hin.symm)⟩
    · obtain ⟨q, -, -, he⟩ := hcells _ _ _ he
      cases he
    · obtain ⟨-, hs, hi, ha⟩ := step_fields hf (hnext.trans hd)
      obtain ⟨names', rfl, rfl⟩ := habove hne
      exact ⟨names', h.consume hin (by simpa using ha) hs hi⟩

end

section

variable {g : Grammar} (hw : g.WellFormed) (hg : g.Named) {tokens : List String}
  {s₀ : Simulation}
  (hstart : start (g.buildTable [] []).2 (g.buildTable [] []).1 tokens = .ok s₀)

include hw hg hstart

theorem stocked_of_start : ∃ names, Stocked g s₀ names := by
  obtain ⟨n, hn, hadmitted, rfl⟩ := start_eq_ok hstart
  rw [(Grammar.buildTable_frame g [] []).2.2] at hn
  obtain ⟨n', hn', hmem⟩ := hw.start_mem
  obtain rfl : n = n' := Option.some.inj (hn.symm.trans hn')
  have htokens : epsilonName ∉ tokens.filter (· ≠ "") := fun hm =>
    (hadmitted _ hm).1 (by simp [reserved])
  refine ⟨[n], rfl, by simpa using .inl hmem, ?_, ?_⟩
  · simpa [applied, history] using (hg.nonTerminals.ne_epsilonName hmem).symm
  · simpa [endName, epsilonName] using htokens

theorem stocked_stepped (k : Nat) : ∃ names, Stocked g (s₀.stepped k) names := by
  induction k with
  | zero => exact stocked_of_start hw hg hstart
  | succ k ih =>
    obtain ⟨names, hs⟩ := ih
    obtain ⟨hg₀, ht₀, -⟩ := stepped_frame k s₀
    obtain ⟨-, -, hgrammar, htable, -⟩ := tracks_of_start hstart
    rw [stepped_succ]
    cases hf : (s₀.stepped k).isFinished with
    | true =>
      rw [step_of_isFinished hf]
      exact ⟨names, hs⟩
    | false =>
      refine hs.step hw hg ?_ (fun row column e he => ?_) hf
      · rw [hg₀, hgrammar, (Grammar.buildTable_frame g [] []).1]
      · rw [ht₀, htable] at he
        obtain ⟨p, hp, hpre, rfl⟩ := Grammar.mem_of_get?_buildTable_nil he
        exact ⟨p, hp, hpre.1, rfl⟩

end

/-- **What lies on the stack.**  Take a machine with the table of a valid
grammar, without error functions, and any commands.  On its stack the end
marker is at the bottom, with declared names and `ε` above it.  There is an `ε`
exactly if a step of the history applied a production that has it beside other
symbols; a grammar without such productions has only declared names there. -/
theorem performAll_stack {g : Grammar} (hg : g.Named)
    (hvalid : Diagnostic.hasErrors g.problems = false) {tokens : List String}
    {s₀ s : Simulation}
    (hstart : start (g.buildTable [] []).2 (g.buildTable [] []).1 tokens = .ok s₀)
    {commands : List Command} (h : s₀.performAll commands = some s) :
    ∃ names, s.current.stack = names ++ [endName] ∧
      (∀ n ∈ names, n ∈ g.nonTerminals ∨ n ∈ g.terminals ∨ n = epsilonName) ∧
      (epsilonName ∈ names ↔
        ∃ r ∈ s.history, ∃ p ∈ g.productions, r.production = some p ∧ p.MixesEpsilon) ∧
      ((∀ p ∈ g.productions, ¬ p.MixesEpsilon) →
        ∀ n ∈ names, n ∈ g.nonTerminals ∨ n ∈ g.terminals) := by
  -- The machine stands where single steps have taken it.
  obtain ⟨-, hcurrent, hrecords⟩ := performAll_fields hstart h
  obtain ⟨names, hs⟩ := stocked_stepped (Grammar.wellFormed_iff.1 hvalid) hg hstart s.current.steps
  have happlied : (s₀.stepped s.current.steps).applied = s.applied := by
    rw [applied, applied, history, history, hrecords]
  have hmixed : epsilonName ∈ names ↔
      ∃ r ∈ s.history, ∃ p ∈ g.productions, r.production = some p ∧ p.MixesEpsilon := by
    rw [hs.epsilon_iff, happlied]
    constructor
    · rintro ⟨p, hp, hm⟩
      obtain ⟨r, hrec, hprod⟩ := List.mem_filterMap.1 hp
      exact ⟨r, hrec, p, (mem_of_mem_applied hstart h hp).1, hprod, hm⟩
    · rintro ⟨r, hrec, p, -, hprod, hm⟩
      exact ⟨p, List.mem_filterMap.2 ⟨r, hrec, hprod⟩, hm⟩
  refine ⟨names, by rw [hcurrent, hs.stack_eq], hs.declared, hmixed, fun hnone n hn => ?_⟩
  rcases hs.declared n hn with hd | hd | rfl
  · exact .inl hd
  · exact .inr hd
  · obtain ⟨_, -, p, hp, -, hm⟩ := hmixed.1 hn
    exact absurd hm (hnone p hp)

/-- The consequent `ε c` is applied at the end of the input, after one undo. -/
theorem performAll_stack_mixed :
    let items : List ProductionItem :=
      [.sides ⟨"S", ["a", "B"]⟩, .sides ⟨"B", ["b"]⟩, .sides ⟨"B", ["ε", "c"]⟩]
    let mixed : Production := ⟨"B", .epsilon, [.terminal "c"]⟩
    let g : Grammar :=
      { nonTerminals := ["S", "B"], terminals := ["a", "b", "c"], start := some "S"
        productions := [⟨"S", .terminal "a", [.nonTerminal "B"]⟩, ⟨"B", .terminal "b", []⟩, mixed] }
    let commands : List Command := [.run (some 2), .stepBack, .step, .step]
    Grammar.build "" "" ["S", "B"] ["a", "b", "c"] items (some "S") = .ok g ∧
    Diagnostic.hasErrors g.problems = false ∧
    ∃ s₀ s, start (g.buildTable [] []).2 (g.buildTable [] []).1 ["a"] = .ok s₀ ∧
      s₀.performAll commands = some s ∧
      ∃ names, s.current.stack = names ++ [endName] ∧ epsilonName ∈ names := by
  intro items mixed g commands
  have hbuild : Grammar.build "" "" ["S", "B"] ["a", "b", "c"] items (some "S") = .ok g := rfl
  have hg : g.Reachable := .build hbuild
  have hvalid : Diagnostic.hasErrors g.problems = false := by decide +kernel
  have hstart := Eq.refl (start (g.buildTable [] []).2 (g.buildTable [] []).1 ["a"])
  obtain ⟨names, hstack, -, hmixed, -⟩ :=
    @performAll_stack g hg.named hvalid ["a"] _ _ hstart commands rfl
  refine ⟨hbuild, hvalid, _, _, hstart, rfl, names, hstack, hmixed.2 ?_⟩
  exact ⟨⟨3, "$ c ε", "$", "B → ε c", some mixed, none⟩, by decide +kernel, mixed, by decide, rfl,
    by decide⟩

/-- A valid grammar whose machine gets `ε` on its stack. -/
theorem exists_epsilon_on_stack :
    ∃ (g : Grammar) (tokens : List String) (s₀ s : Simulation), g.Reachable ∧
      Diagnostic.hasErrors g.problems = false ∧
      start (g.buildTable [] []).2 (g.buildTable [] []).1 tokens = .ok s₀ ∧
      s₀.performAll [.step] = some s ∧ s.current.stack = ["a", "ε", "$"] := by
  let items : List ProductionItem := [.sides ⟨"S", ["a", "ε"]⟩]
  let g : Grammar :=
    { nonTerminals := ["S"], terminals := ["a"], start := some "S"
      productions := [⟨"S", .terminal "a", [.epsilon]⟩] }
  have hbuild : Grammar.build "" "" ["S"] ["a"] items (some "S") = .ok g := rfl
  exact ⟨g, ["a"], _, _, .build hbuild, by decide +kernel, rfl, rfl, by decide +kernel⟩

end Simulation

end PredictiveParsing
