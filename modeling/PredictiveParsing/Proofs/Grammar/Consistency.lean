import PredictiveParsing.Proofs.Grammar.Reachable

/-
What a grammar stores agrees with itself.

Beside vocabulary and productions a grammar keeps what follows from them: the
kinds of the symbols, the FIRST and FOLLOW sets, and whether it is valid.
Every operation either forgets these or leaves them true, with one exception:
a replacement of the vocabulary that is refused half way.

* `Symbol.IsTagged` — a symbol is of the kind that its name has;
* `Grammar.Judged` — the validity noted is the one a validation would note;
* `Judged.apply` — no operation spoils it;
* `SoundlyReachable.consistent` — everything a grammar stores is true of it;
* `declared_eq_error_iff` — which lists of names are refused;
* `refused_replacement` — what a refused replacement leaves behind;
* `exists_refused_inconsistent` — a grammar that it makes inconsistent.

Design notes:

* A copy keeps the validity although it tags the productions anew.  It may do
  so only because the tags were right before; so `Judged` goes through the
  operations together with `Coherent`.
-/
namespace PredictiveParsing

/-! ### Kinds of symbols -/

namespace Symbol

/-- The symbol is of the kind that its name has in a vocabulary. -/
structure IsTagged (nonTerminals : List String) (s : Symbol) : Prop where
  epsilon_iff : s = epsilon ↔ s.name = epsilonName
  endMarker_iff : s = endMarker ↔ s.name = endName
  nonTerminal_iff : s = nonTerminal s.name ↔ s.name ∈ nonTerminals
  terminal_iff : s = terminal s.name ↔ s.name ∉ reserved ∧ s.name ∉ nonTerminals

theorem isTagged_ofName {nonTerminals : List String} (h : Declarable nonTerminals) (n : String) :
    (ofName nonTerminals n).IsTagged nonTerminals := by
  have hε := h.epsilonName_notMem
  have hend := h.endName_notMem
  have hne : endName ≠ epsilonName := by decide
  rw [ofName]
  split
  · constructor <;> simp [name, hε, hne.symm, reserved]
  · next hnε =>
    split
    · constructor <;> simp [name, hend, hne, reserved]
    · next hnend =>
      split
      · next hm => constructor <;> simp [name, hnε, hnend, hm]
      · next hm => constructor <;> simp [name, hnε, hnend, hm, reserved]

end Symbol

namespace Grammar

variable {g : Grammar}

/-- In a tagged grammar every symbol of a consequent is of the kind that its
name has. -/
theorem Tagged.isTagged (h : g.Tagged) (hn : g.Named) {p : Production} (hp : p ∈ g.productions)
    {s : Symbol} (hs : s ∈ p.consequent) : s.IsTagged g.nonTerminals := by
  rw [h.consequent_eq hp] at hs
  obtain ⟨n, -, rfl⟩ := List.mem_map.1 hs
  exact Symbol.isTagged_ofName hn.nonTerminals n

theorem Tagged.retagged_eq (h : g.Tagged) : g.retagged = g.productions := by
  rw [retagged]
  exact List.map_congr_left h |>.trans (List.map_id _)

/-! ### The validity noted -/

/-- If a validity is noted, a validation would note it again. -/
def Judged (g : Grammar) : Prop :=
  g.validity ≠ .unvalidated → g.validity = g.validate.2.validity

theorem Judged.of_unvalidated (h : g.validity = .unvalidated) : g.Judged :=
  fun hne => absurd h hne

theorem judged_validate (g : Grammar) : g.validate.2.Judged :=
  fun _ => rfl

theorem Judged.hasErrors_eq (h : g.Judged) :
    (g.validity = .valid → Diagnostic.hasErrors g.validate.1 = false) ∧
      (g.validity = .invalid → Diagnostic.hasErrors g.validate.1 = true) := by
  have hnoted : g.validate.2.validity =
      if Diagnostic.hasErrors g.validate.1 then .invalid else .valid := rfl
  constructor
  · intro hv
    have hg := h (by simp [hv])
    rw [hv, hnoted] at hg
    cases he : Diagnostic.hasErrors g.validate.1 with
    | false => rfl
    | true => simp [he] at hg
  · intro hv
    have hg := h (by simp [hv])
    rw [hv, hnoted] at hg
    cases he : Diagnostic.hasErrors g.validate.1 with
    | false => simp [he] at hg
    | true => rfl

/-- Validation does not look at the sets. -/
theorem Judged.note (h : g.Judged) (first follow : Option Family) :
    Judged { g with first, follow } := h

theorem Judged.copy (h : g.Judged) (ht : g.Tagged) : g.copy.Judged := by
  rw [Grammar.copy, ht.retagged_eq]
  exact h.note none none

theorem Judged.setProductions (h : g.Judged) (items : List ProductionItem) :
    (setProductions items g).2.Judged := by
  rcases setProductions_cases items g with ⟨_, he⟩ | ⟨_, -, he⟩
  · rw [he]
    exact h
  · rw [he]
    exact .of_unvalidated rfl

theorem Judged.adopt (h : g.Judged) (hn : g.Named) (names introduced : List String)
    (sides : List Sides) : (adopt names introduced sides g).2.Judged := by
  cases hd : declared names with
  | error fault =>
    have he : Grammar.adopt names introduced sides g = (.error fault, g) := by
      simp [Grammar.adopt, setVocabulary, hd]
    rw [he]
    exact h
  | ok names' =>
    -- What was adopted has still to be validated.
    rw [adopt_of_declared hn introduced sides hd]
    exact .of_unvalidated rfl

/-- **No operation leaves a validity that is not true**, unless it is a
replacement of the vocabulary that fails. -/
theorem Judged.apply (h : g.Judged) (hn : g.Named) (hc : g.Coherent) {o : Operation}
    (ho : o.IsSound g) : (o.apply g).Judged := by
  have hadopt : ∀ names introduced sides (g : Grammar), g.Named ∧ g.Judged →
      (Grammar.adopt names introduced sides g).2.Named ∧
        (Grammar.adopt names introduced sides g).2.Judged :=
    fun names introduced sides g h => ⟨h.1.adopt names introduced sides, h.2.adopt h.1 _ _ _⟩
  by_cases hcomputes : o.computes = true
  · obtain ⟨_, _, he, -, -⟩ := g.apply_of_computes hcomputes
    rw [he]
    exact h.note _ _
  cases o with
  | setVocabulary nonTerminals terminals =>
    rcases setVocabulary_cases nonTerminals terminals g with
      ⟨_, he⟩ | ⟨_, _, -, he⟩ | ⟨_, _, -, -, he⟩
    · simp [Operation.IsSound, he] at ho
    · simp [Operation.IsSound, he] at ho
    · rw [Operation.apply, he]
      exact .of_unvalidated rfl
  | setProductions items => exact h.setProductions items
  | setStart start => exact .of_unvalidated rfl
  | validate => exact judged_validate g
  | eliminateLeftRecursion policy =>
    exact (eliminateLeftRecursion_induction hadopt policy ⟨hn, h⟩).2
  | leftFactor policy => exact (leftFactor_induction hadopt policy ⟨hn, h⟩).2
  | normalize policy =>
    simp only [Operation.apply]
    split
    · next n he =>
      exact (normalize_induction hadopt
        (fun _ => ⟨⟨hn.nonTerminals, hn.terminals⟩, h.copy hc.tagged⟩) he ⟨hn, h⟩).2
    · exact h
  | copy => exact h.copy hc.tagged
  | computeFirst | computeFollow | logFirst | logFollow | knownSets | buildTable =>
    exact absurd rfl hcomputes

theorem SoundlyReachable.judged (h : g.SoundlyReachable) : g.Judged := by
  induction h with
  | build h =>
    obtain ⟨_, _, -, -, rfl⟩ := build_cases h
    exact .of_unvalidated rfl
  | apply o ho hg ih => exact ih.apply (SoundlyReachable.reachable hg).named (coherent hg) ho

/-! ### Everything a grammar stores -/

/-- Everything that a grammar stores is true of it as it is now. -/
structure Consistent (g : Grammar) : Prop where
  nonTerminals : Declarable g.nonTerminals
  terminals : Declarable g.terminals
  consequent_ne_nil : ∀ p ∈ g.productions, p.consequent ≠ []
  isTagged : ∀ p ∈ g.productions, ∀ s ∈ p.consequent, s.IsTagged g.nonTerminals
  first_eq : ∀ f, g.first = some f → f = g.computeFirst.1
  follow_eq : ∀ f, g.follow = some f → f = (g.computeFollow g.computeFirst.1).1
  hasErrors_of_valid : g.validity = .valid → Diagnostic.hasErrors g.validate.1 = false
  hasErrors_of_invalid : g.validity = .invalid → Diagnostic.hasErrors g.validate.1 = true

/-- **A grammar on which no replacement of the vocabulary failed is always
consistent.** -/
theorem SoundlyReachable.consistent (h : g.SoundlyReachable) : g.Consistent := by
  have hn := h.reachable.named
  have hc := h.coherent
  obtain ⟨hvalid, hinvalid⟩ := h.judged.hasErrors_eq
  exact
    { nonTerminals := hn.nonTerminals
      terminals := hn.terminals
      consequent_ne_nil := fun p _ => List.cons_ne_nil _ _
      isTagged := fun p hp s hs => hc.tagged.isTagged hn hp hs
      first_eq := hc.first_eq
      follow_eq := hc.follow_eq
      hasErrors_of_valid := hvalid
      hasErrors_of_invalid := hinvalid }

/-- Sets are remembered, productions refused and left recursion removed before
the sets are asked for again, with their logs. -/
theorem consistent_rewritten :
    let items : List ProductionItem := [.sides ⟨"A", ["A", "b"]⟩, .sides ⟨"A", ["a"]⟩]
    let built : Grammar :=
      { nonTerminals := ["A"], terminals := ["a", "b"], start := some "A"
        productions := [⟨"A", .nonTerminal "A", [.terminal "b"]⟩, ⟨"A", .terminal "a", []⟩] }
    let operations : List Operation := [.knownSets, .setProductions [.displayed "A a"],
      .eliminateLeftRecursion .refuse, .logFollow, .logFirst, .validate]
    let g := operations.foldl (fun g o => o.apply g) built
    build "" "" ["A"] ["a", "b"] items (some "A") = .ok built ∧
    g.productions = [⟨"A'", .terminal "b", [.nonTerminal "A'"]⟩,
      ⟨"A", .terminal "a", [.nonTerminal "A'"]⟩, ⟨"A'", .epsilon, []⟩] ∧
    g.first ≠ none ∧ g.follow ≠ none ∧ g.validity = .valid ∧
    g.SoundlyReachable ∧ g.Consistent := by
  intro items built operations g
  have hbuild : build "" "" ["A"] ["a", "b"] items (some "A") = .ok built := rfl
  have hg : g.SoundlyReachable :=
    .apply .validate trivial (.apply .logFirst trivial (.apply .logFollow trivial
      (.apply (.eliminateLeftRecursion .refuse) trivial
        (.apply (.setProductions [.displayed "A a"]) trivial
          (.apply .knownSets trivial (.build hbuild))))))
  exact ⟨hbuild, by decide +kernel, by decide +kernel, by decide +kernel, by decide +kernel, hg,
    hg.consistent⟩

/-! ### Refused replacements -/

/-- Taking a name in fails exactly at a reserved one. -/
theorem enlist_eq_error_iff {names : List String} {n : String} {fault : Fault} :
    enlist names n = .error fault ↔
      Text.trim n ∈ reserved ∧ fault = .reservedName (Text.trim n) := by
  have hempty : "" ∉ reserved := by decide
  simp only [enlist]
  split
  · next h => simp [h, hempty]
  · split
    · next h => simp [h, eq_comm]
    · next h => split <;> simp [h]

theorem foldlM_enlist_eq_error_iff {acc names : List String} {fault : Fault} :
    names.foldlM enlist acc = .error fault ↔
      ((names.map Text.trim).find? (· ∈ reserved)).map .reservedName = some fault := by
  induction names generalizing acc with
  | nil => simp [pure, Except.pure]
  | cons n names ih =>
    rw [List.foldlM_cons, List.map_cons]
    cases he : enlist acc n with
    | error fault' =>
      obtain ⟨hn, rfl⟩ := enlist_eq_error_iff.1 he
      rw [List.find?_cons_of_pos (by simpa using hn)]
      simp [bind, Except.bind]
    | ok acc' =>
      have hn : Text.trim n ∉ reserved := by
        intro hn
        have herror : enlist acc n = .error (.reservedName (Text.trim n)) :=
          enlist_eq_error_iff.2 ⟨hn, rfl⟩
        rw [he] at herror
        cases herror
      rw [List.find?_cons_of_neg (by simpa using hn)]
      exact ih

/-- **A list of names is refused exactly for the first reserved name in it.** -/
theorem declared_eq_error_iff {names : List String} {fault : Fault} :
    declared names = .error fault ↔
      ((names.map Text.trim).find? (· ∈ reserved)).map .reservedName = some fault :=
  foldlM_enlist_eq_error_iff

theorem exists_of_declared_eq_error {names : List String} {fault : Fault}
    (h : declared names = .error fault) :
    ∃ n ∈ names, Text.trim n ∈ reserved ∧ fault = .reservedName (Text.trim n) := by
  obtain ⟨_, hn, rfl⟩ := Option.map_eq_some_iff.1 (declared_eq_error_iff.1 h)
  obtain ⟨n, hmem, rfl⟩ := List.mem_map.1 (List.mem_of_find?_eq_some hn)
  exact ⟨n, hmem, by simpa using List.find?_some hn, rfl⟩

theorem notMem_reserved_of_declared_eq_ok {names out : List String}
    (h : declared names = .ok out) : ∀ n ∈ names, Text.trim n ∉ reserved := by
  intro n hn hr
  have hsome : ((names.map Text.trim).find? (· ∈ reserved)).isSome = true :=
    List.find?_isSome.2 ⟨_, List.mem_map_of_mem hn, by simpa using hr⟩
  obtain ⟨m, hm⟩ := Option.isSome_iff_exists.1 hsome
  have herror : declared names = .error (.reservedName m) :=
    declared_eq_error_iff.2 (by rw [hm]; rfl)
  rw [h] at herror
  cases herror

/-- A vocabulary is refused for its non-terminals before anything is replaced,
or for its terminals after the non-terminals are. -/
theorem setVocabulary_eq_error_iff {g g' : Grammar} {nonTerminals terminals : List String}
    {fault : Fault} :
    setVocabulary nonTerminals terminals g = (.error fault, g') ↔
      declared nonTerminals = .error fault ∧ g' = g ∨
      ∃ names, declared nonTerminals = .ok names ∧ declared terminals = .error fault ∧
        g' = { g with nonTerminals := names } := by
  cases hn : declared nonTerminals with
  | error fault' => simp [setVocabulary, hn, eq_comm]
  | ok names =>
    cases ht : declared terminals with
    | error fault' => simp [setVocabulary, hn, ht, eq_comm]
    | ok others => simp [setVocabulary, hn, ht]

/-- **What a refused replacement leaves.**  Refused productions change nothing.
A vocabulary is refused for a reserved name on one of its sides; what is left
has at most other non-terminals, and it is what it was exactly if the reserved
name is among the non-terminals handed in, or if these are the old ones. -/
theorem refused_replacement (g g' : Grammar) (fault : Fault) :
    (∀ items, setProductions items g = (.error fault, g') → g' = g) ∧
    ∀ nonTerminals terminals, setVocabulary nonTerminals terminals g = (.error fault, g') →
      (∃ n ∈ nonTerminals ++ terminals, Text.trim n ∈ reserved ∧
        fault = .reservedName (Text.trim n)) ∧
      g' = { g with nonTerminals := g'.nonTerminals } ∧
      (g' = g ↔ (∃ n ∈ nonTerminals, Text.trim n ∈ reserved) ∨
        declared nonTerminals = .ok g.nonTerminals) := by
  refine ⟨fun items h => setProductions_error h, fun nonTerminals terminals h => ?_⟩
  rcases setVocabulary_eq_error_iff.1 h with ⟨hn, rfl⟩ | ⟨names, hn, ht, rfl⟩
  · obtain ⟨n, hmem, hr, hf⟩ := exists_of_declared_eq_error hn
    exact ⟨⟨n, List.mem_append_left _ hmem, hr, hf⟩, rfl,
      iff_of_true rfl (.inl ⟨n, hmem, hr⟩)⟩
  · obtain ⟨n, hmem, hr, hf⟩ := exists_of_declared_eq_error ht
    refine ⟨⟨n, List.mem_append_right _ hmem, hr, hf⟩, rfl, ?_⟩
    -- The non-terminals are replaced already, so they decide.
    have hsame : ({ g with nonTerminals := names } : Grammar) = g ↔ names = g.nonTerminals :=
      ⟨congrArg Grammar.nonTerminals, fun he => by rw [he]⟩
    have hplain : ¬ ∃ n ∈ nonTerminals, Text.trim n ∈ reserved := by
      rintro ⟨m, hm, hmr⟩
      exact notMem_reserved_of_declared_eq_ok hn m hm hmr
    rw [hsame, hn, Except.ok.injEq, or_iff_right hplain]

/-- A refusal that leaves everything and one that leaves new non-terminals. -/
theorem refused_replacement_halves :
    let g : Grammar := { nonTerminals := ["S"], terminals := ["a"], start := some "S" }
    let fault : Fault := .reservedName "$"
    setVocabulary ["T", " $"] ["b"] g = (.error fault, g) ∧
    setVocabulary [" T", "T"] ["b", "$"] g = (.error fault, { g with nonTerminals := ["T"] }) ∧
    ¬ ((∃ n ∈ [" T", "T"], Text.trim n ∈ reserved) ∨
      declared [" T", "T"] = .ok g.nonTerminals) := by
  intro g fault
  have hhalf : setVocabulary [" T", "T"] ["b", "$"] g =
      (.error fault, { g with nonTerminals := ["T"] }) := rfl
  obtain ⟨-, -, hiff⟩ := (refused_replacement g _ fault).2 _ _ hhalf
  exact ⟨rfl, hhalf, fun h => absurd (hiff.2 h) (by decide)⟩

/-- A refused vocabulary makes of a valid grammar one that still counts as
valid, but is not. -/
theorem exists_refused_inconsistent :
    ∃ (g g' : Grammar) (nonTerminals terminals : List String) (fault : Fault),
      g.SoundlyReachable ∧ setVocabulary nonTerminals terminals g = (.error fault, g') ∧
      g' ≠ g ∧ ¬ g'.Consistent := by
  let items : List ProductionItem := [.sides ⟨"S", ["a"]⟩]
  let built : Grammar :=
    { nonTerminals := ["S"], terminals := ["a"], start := some "S"
      productions := [⟨"S", .terminal "a", []⟩] }
  have hbuild : build "" "" ["S"] ["a"] items (some "S") = .ok built := rfl
  let g := Operation.validate.apply (Operation.knownSets.apply built)
  have hg : g.SoundlyReachable :=
    .apply .validate trivial (.apply .knownSets trivial (.build hbuild))
  refine ⟨g, { g with nonTerminals := ["T"] }, ["T"], ["$"], .reservedName "$", hg, rfl,
    by decide +kernel, ?_⟩
  intro hc
  have hvalid := hc.hasErrors_of_valid (by decide +kernel)
  revert hvalid
  decide +kernel

end Grammar

end PredictiveParsing
