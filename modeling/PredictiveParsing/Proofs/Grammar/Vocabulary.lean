import PredictiveParsing.Grammar.LeftRecursion

/-
Vocabularies, and what the replacements make of them.

* `Declarable` — lists of names that a vocabulary can hold;
* `declarable_of_declared`, `declared_eq_self` — declaring gives such a list,
  and gives it back;
* `Grammar.Named` — grammars whose vocabulary is declarable, on both sides;
* `Grammar.Tagged` — grammars whose consequents are tagged by the vocabulary;
* `setVocabulary_cases` — everything a replacement of the vocabulary can do;
* `Grammar.rewritten`, `adopt_of_declared` — a grammar that has adopted a
  rewriting;
* `adopt_cases` — everything the adoption of a rewriting can do;
* `build_of_declared` — when a grammar can be built of sides, and which.
-/
namespace PredictiveParsing

/-- The names are distinct, and each is trimmed, not blank and not reserved. -/
structure Declarable (names : List String) : Prop where
  nodup : names.Nodup
  trim_eq : ∀ n ∈ names, Text.trim n = n
  ne_empty : ∀ n ∈ names, n ≠ ""
  notMem_reserved : ∀ n ∈ names, n ∉ reserved

namespace Declarable

theorem nil : Declarable [] :=
  ⟨List.nodup_nil, by simp, by simp, by simp⟩

theorem ne_epsilonName {names : List String} (h : Declarable names) {n : String}
    (hn : n ∈ names) : n ≠ epsilonName :=
  fun he => h.notMem_reserved n hn (by simp [reserved, he])

theorem ne_endName {names : List String} (h : Declarable names) {n : String}
    (hn : n ∈ names) : n ≠ endName :=
  fun he => h.notMem_reserved n hn (by simp [reserved, he])

theorem epsilonName_notMem {names : List String} (h : Declarable names) : epsilonName ∉ names :=
  fun hm => h.ne_epsilonName hm rfl

theorem endName_notMem {names : List String} (h : Declarable names) : endName ∉ names :=
  fun hm => h.ne_endName hm rfl

end Declarable

namespace Grammar

/-! ### Declaring -/

theorem declarable_of_enlist {names out : List String} {n : String}
    (h : enlist names n = .ok out) (hn : Declarable names) : Declarable out := by
  have hnodup := enlist_nodup h hn.nodup
  simp only [enlist] at h
  split at h
  · cases h
    exact hn
  · next hne =>
    split at h
    · cases h
    · next hres =>
      split at h
      · cases h
        exact hn
      · cases h
        -- The name passed every test of a declaration.
        have hmem : ∀ m ∈ names ++ [Text.trim n], m ∈ names ∨ m = Text.trim n := by simp
        refine ⟨hnodup, fun m hm => ?_, fun m hm => ?_, fun m hm => ?_⟩
        · rcases hmem m hm with hm | rfl
          · exact hn.trim_eq m hm
          · exact Text.trim_trim n
        · rcases hmem m hm with hm | rfl
          · exact hn.ne_empty m hm
          · exact hne
        · rcases hmem m hm with hm | rfl
          · exact hn.notMem_reserved m hm
          · exact hres

theorem declarable_of_foldlM {acc names out : List String}
    (h : names.foldlM enlist acc = .ok out) (ha : Declarable acc) : Declarable out := by
  induction names generalizing acc with
  | nil =>
    cases h
    exact ha
  | cons n names ih =>
    rw [List.foldlM_cons] at h
    cases he : enlist acc n with
    | error fault => simp [he, bind, Except.bind] at h
    | ok acc' =>
      rw [he] at h
      exact ih h (declarable_of_enlist he ha)

theorem declarable_of_declared {names out : List String} (h : declared names = .ok out) :
    Declarable out :=
  declarable_of_foldlM h .nil

theorem foldlM_enlist_of_declarable {acc names : List String} (h : Declarable (acc ++ names)) :
    names.foldlM enlist acc = .ok (acc ++ names) := by
  induction names generalizing acc with
  | nil => simp [pure, Except.pure]
  | cons n names ih =>
    have hn : n ∈ acc ++ n :: names := by simp
    have hacc : n ∉ acc := by
      intro hm
      exact (List.nodup_append.1 h.nodup).2.2 n hm n (by simp) rfl
    have he : enlist acc n = .ok (acc ++ [n]) := by
      simp only [enlist]
      rw [h.trim_eq n hn, if_neg (h.ne_empty n hn), if_neg (h.notMem_reserved n hn), if_neg hacc]
    have hih := ih (by simpa using h : Declarable ((acc ++ [n]) ++ names))
    rw [List.append_assoc] at hih
    rw [List.foldlM_cons, he]
    exact hih

/-- Names that a vocabulary can hold are declared as they are. -/
theorem declared_eq_self {names : List String} (h : Declarable names) :
    declared names = .ok names :=
  foldlM_enlist_of_declarable (by simpa using h : Declarable ([] ++ names))

/-! ### Grammars with such a vocabulary -/

/-- Both sides of the vocabulary are lists that declaring gives. -/
structure Named (g : Grammar) : Prop where
  nonTerminals : Declarable g.nonTerminals
  terminals : Declarable g.terminals

/-- Every symbol of a consequent is tagged as the vocabulary says. -/
def Tagged (g : Grammar) : Prop :=
  ∀ p ∈ g.productions, p.retag g.nonTerminals = p

/-- Everything a replacement of the vocabulary can do: nothing, replace the
non-terminals alone, or succeed. -/
theorem setVocabulary_cases (nonTerminals terminals : List String) (g : Grammar) :
    (∃ fault, setVocabulary nonTerminals terminals g = (.error fault, g)) ∨
    (∃ fault names, declared nonTerminals = .ok names ∧
      setVocabulary nonTerminals terminals g = (.error fault, { g with nonTerminals := names })) ∨
    ∃ names others, declared nonTerminals = .ok names ∧ declared terminals = .ok others ∧
      setVocabulary nonTerminals terminals g =
        (.ok (), invalidate { g with
          nonTerminals := names
          terminals := others
          introduced := g.introduced.filter (· ∈ names)
          productions := g.productions.map (Production.retag names) }) := by
  cases hn : declared nonTerminals with
  | error fault => exact .inl ⟨fault, by simp [setVocabulary, hn]⟩
  | ok names =>
    cases ht : declared terminals with
    | error fault => exact .inr (.inl ⟨fault, names, rfl, by simp [setVocabulary, hn, ht]⟩)
    | ok others => exact .inr (.inr ⟨names, others, rfl, rfl, by
        simp [setVocabulary, hn, ht, retagged]⟩)

theorem Named.setVocabulary {g : Grammar} (h : g.Named) (nonTerminals terminals : List String) :
    (setVocabulary nonTerminals terminals g).2.Named := by
  rcases setVocabulary_cases nonTerminals terminals g with
    ⟨_, he⟩ | ⟨_, names, hn, he⟩ | ⟨names, others, hn, ht, he⟩
  · rw [he]
    exact h
  · rw [he]
    exact ⟨declarable_of_declared hn, h.terminals⟩
  · rw [he]
    exact ⟨declarable_of_declared hn, declarable_of_declared ht⟩

theorem Named.setStart {g : Grammar} (h : g.Named) (start : Option String) :
    (g.setStart start).Named := by
  constructor
  · rw [nonTerminals_setStart]
    exact h.nonTerminals
  · rw [terminals_setStart]
    exact h.terminals

/-- Everything a replacement of the productions can do. -/
theorem setProductions_cases (items : List ProductionItem) (g : Grammar) :
    (∃ fault, setProductions items g = (.error fault, g)) ∨
    ∃ sides, items.mapM ProductionItem.read = .ok sides ∧
      setProductions items g = (.ok (), invalidate { g with productions := sides.map g.tag }) := by
  cases hs : items.mapM ProductionItem.read with
  | error fault => exact .inl ⟨fault, by simp [setProductions, hs]⟩
  | ok sides => exact .inr ⟨sides, rfl, by simp [setProductions, hs]⟩

theorem Named.setProductions {g : Grammar} (h : g.Named) (items : List ProductionItem) :
    (setProductions items g).2.Named := by
  rcases setProductions_cases items g with ⟨_, he⟩ | ⟨_, _, he⟩
  · rw [he]
    exact h
  · rw [he]
    exact ⟨h.nonTerminals, h.terminals⟩

/-! ### Tags -/

/-- Tagging with the same vocabulary twice is tagging once. -/
@[simp] theorem retag_retag (names : List String) (p : Production) :
    (p.retag names).retag names = p.retag names := by
  rw [Production.retag, Production.names_retag, Production.antecedent_retag]
  rfl

@[simp] theorem retag_tag (g : Grammar) (s : Sides) : (g.tag s).retag g.nonTerminals = g.tag s := by
  cases h : s.names with
  | nil => simp [tag, h, Production.ofSymbols, Production.retag, Production.names,
      Production.consequent, Symbol.ofName, Symbol.name]
  | cons n ns => simp [tag, h, Production.ofSymbols, Production.retag, Production.names,
      Production.consequent, symbol, Function.comp_def]

/-- With the right tags, a consequent is given by its names. -/
theorem Tagged.consequent_eq {g : Grammar} (h : g.Tagged) {p : Production}
    (hp : p ∈ g.productions) : p.consequent = p.names.map g.symbol := by
  have hc : (p.retag g.nonTerminals).consequent = p.names.map g.symbol := by
    rw [Production.retag, Production.consequent_ofSymbols, if_neg]
    · rfl
    · simp [Production.names, Production.consequent]
  rw [← hc, h p hp]

theorem Tagged.eq_symbol {g : Grammar} (h : g.Tagged) {p : Production} (hp : p ∈ g.productions)
    {s : Symbol} (hs : s ∈ p.consequent) : s = g.symbol s.name := by
  rw [h.consequent_eq hp] at hs
  obtain ⟨n, -, rfl⟩ := List.mem_map.1 hs
  exact congrArg g.symbol (Symbol.name_ofName _ n).symm

theorem Tagged.first_eq {g : Grammar} (h : g.Tagged) {p : Production} (hp : p ∈ g.productions) :
    p.first = g.symbol p.first.name :=
  (List.cons.inj (h.consequent_eq hp)).1

theorem Named.symbol_of_mem {g : Grammar} (h : g.Named) {n : String}
    (hn : n ∈ g.nonTerminals) : g.symbol n = .nonTerminal n := by
  rw [symbol, Symbol.ofName, if_neg (h.nonTerminals.ne_epsilonName hn),
    if_neg (h.nonTerminals.ne_endName hn), if_pos hn]

theorem symbol_of_notMem {g : Grammar} {n : String} (hn : n ∉ g.nonTerminals)
    (hr : n ∉ reserved) : g.symbol n = .terminal n := by
  simp only [reserved, List.mem_cons, List.not_mem_nil, or_false, not_or] at hr
  rw [symbol, Symbol.ofName, if_neg hr.1, if_neg hr.2, if_neg hn]

theorem exists_of_isNonTerminal {s : Symbol} (hs : s.isNonTerminal = true) :
    ∃ n, s = .nonTerminal n := by
  cases s <;> first | exact ⟨_, rfl⟩ | cases hs

/-- A first symbol that is tagged as a non-terminal is declared as one. -/
theorem Tagged.first_mem {g : Grammar} (h : g.Tagged) {p : Production} (hp : p ∈ g.productions)
    {n : String} (hf : p.first = .nonTerminal n) : n ∈ g.nonTerminals := by
  have hs := h.first_eq hp
  rw [hf] at hs
  refine Decidable.byContradiction fun hn => ?_
  by_cases hr : n ∈ reserved
  · simp only [reserved, List.mem_cons, List.not_mem_nil, or_false] at hr
    rcases hr with rfl | rfl <;> cases hs
  · rw [show (Symbol.nonTerminal n).name = n from rfl, symbol_of_notMem hn hr] at hs
    cases hs

theorem Tagged.setStart {g : Grammar} (h : g.Tagged) (start : Option String) :
    (g.setStart start).Tagged := by
  intro p hp
  rw [nonTerminals_setStart]
  exact h p (by rwa [productions_setStart] at hp)

theorem tagged_retagged (g : Grammar) (names : List String) :
    Tagged { g with
      nonTerminals := names, productions := g.productions.map (Production.retag names) } := by
  intro p hp
  obtain ⟨q, -, rfl⟩ := List.mem_map.1 hp
  exact retag_retag names q

/-! ### Adopting a rewriting -/

theorem mapM_read_sides (sides : List Sides) :
    (sides.map ProductionItem.sides).mapM ProductionItem.read = .ok sides := by
  rw [List.mapM_map]
  induction sides with
  | nil => rfl
  | cons s sides ih => simp [List.mapM_cons, ih, ProductionItem.read, bind, Except.bind, pure,
      Except.pure]

/-- A grammar after it has adopted a rewriting over the given non-terminals. -/
def rewritten (g : Grammar) (nonTerminals introduced : List String) (sides : List Sides) :
    Grammar :=
  invalidate { g with
    nonTerminals
    introduced := g.introduced.filter (· ∈ nonTerminals) ++
      introduced.filter fun n => n ∉ g.introduced.filter (· ∈ nonTerminals)
    productions := sides.map (tag { g with nonTerminals }) }

/-- A named grammar adopts a rewriting if the new non-terminals can be declared. -/
theorem adopt_of_declared {g : Grammar} (h : g.Named) {names out : List String}
    (introduced : List String) (sides : List Sides) (hd : declared names = .ok out) :
    adopt names introduced sides g = (.ok (), g.rewritten out introduced sides) := by
  have ht := declared_eq_self h.terminals
  simp only [adopt, setVocabulary, hd, ht, setProductions, mapM_read_sides]
  rfl

/-- Everything the adoption of a rewriting by a named grammar can do: nothing,
or replace vocabulary and productions, tagged anew. -/
theorem adopt_cases {g : Grammar} (h : g.Named) (names introduced : List String)
    (sides : List Sides) :
    (∃ fault, adopt names introduced sides g = (.error fault, g)) ∨
    ∃ names' g', declared names = .ok names' ∧ adopt names introduced sides g = (.ok (), g') ∧
      g'.nonTerminals = names' ∧ g'.terminals = g.terminals ∧ g'.start = g.start ∧
      g'.productions = sides.map g'.tag ∧ g'.first = none ∧ g'.follow = none := by
  cases hn : declared names with
  | error fault => exact .inl ⟨fault, by simp [adopt, setVocabulary, hn]⟩
  | ok names' =>
    exact .inr ⟨names', _, rfl, adopt_of_declared h introduced sides hn, rfl, rfl, rfl, rfl, rfl, rfl⟩

theorem Named.adopt {g : Grammar} (h : g.Named) (names introduced : List String)
    (sides : List Sides) : (adopt names introduced sides g).2.Named := by
  rcases adopt_cases h names introduced sides with ⟨_, he⟩ | ⟨_, g', hn, he, hnts, hts, _⟩
  · rw [he]
    exact h
  · rw [he]
    exact ⟨hnts ▸ declarable_of_declared hn, hts ▸ h.terminals⟩

/-- The tags that come with the adoption of a rewriting are right. -/
theorem tagged_of_productions_eq {g : Grammar} {sides : List Sides}
    (h : g.productions = sides.map g.tag) : g.Tagged := by
  intro p hp
  rw [h] at hp
  obtain ⟨s, -, rfl⟩ := List.mem_map.1 hp
  exact retag_tag g s

/-! ### Building a grammar -/

/-- A grammar is built of sides if its vocabulary can be declared. -/
theorem build_of_declared {nonTerminals terminals names others : List String}
    (hn : declared nonTerminals = .ok names) (ht : declared terminals = .ok others)
    (name description : String) (sides : List Sides) (start : Option String) :
    build name description nonTerminals terminals (sides.map .sides) start =
      .ok (setStart start
        { name, description, nonTerminals := names, terminals := others,
          productions := sides.map (tag { nonTerminals := names }) }) := by
  simp only [build, setVocabulary, hn, ht, setProductions, mapM_read_sides]
  rfl

end Grammar

end PredictiveParsing
