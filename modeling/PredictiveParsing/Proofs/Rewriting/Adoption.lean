import PredictiveParsing.Proofs.Grammar.Reachable
import PredictiveParsing.Proofs.Grammar.Validity
import PredictiveParsing.Proofs.Rewriting.FreshName

/-
Grammars that can be rewritten, and what the adoption of a rewriting gives.

* `Sides.Declared` — sides that write declared names only;
* `Grammar.Rewritable` — every antecedent is declared, and `ε` is marked;
* `Grammar.Closed` — every name that occurs is declared, on one side only;
* `Reachable.rewritable`, `closed_copy` — the grammars that are rewritable, and
  a copy of a well-formed grammar, which is closed;
* `adopt_of_sound` — sides over an extended vocabulary are always adopted;
* `rewritable_rewritten`, `closed_rewritten` — what comes of it is rewritable,
  and closed if it was;
* `rule_iff_of_productions_eq` — it has the rules that the sides write;
* `Yields.of_rules` — a grammar yields what another one does if it can do what
  the rules of that one do.

Design notes:

* A rewriting may leave names unused, so it need not keep a grammar
  well-formed.  `Closed` is what it keeps and what its correctness rests on.
* That it does not fail, that it ends and how it names things only rests on
  `Rewritable`, which says nothing of the symbols of consequents.
-/
namespace PredictiveParsing

namespace Sides

/-- The names that take the place of the antecedent. -/
def word (s : Sides) : List String :=
  s.names.filter (· ≠ epsilonName)

/-- The sides write declared names only. -/
structure Declared (nonTerminals terminals : List String) (s : Sides) : Prop where
  antecedent_mem : s.antecedent ∈ nonTerminals
  name_declared : ∀ n ∈ s.names, n = epsilonName ∨ n ∈ nonTerminals ∨ n ∈ terminals

end Sides

namespace Grammar

/-- Whether a production begins with `ε` is told by the name it begins with. -/
def MarksEpsilon (g : Grammar) : Prop :=
  ∀ p ∈ g.productions, p.first.isEpsilon = true ↔ p.first.name = epsilonName

/-- New names can be made of every antecedent, and no `ε` is taken for a name. -/
structure Rewritable (g : Grammar) : Prop where
  named : g.Named
  marksEpsilon : g.MarksEpsilon
  antecedent_mem : ∀ p ∈ g.productions, p.antecedent ∈ g.nonTerminals

/-- Every name that occurs is declared, and none on both sides. -/
structure Closed (g : Grammar) : Prop where
  named : g.Named
  tagged : g.Tagged
  disjoint : ∀ n ∈ g.terminals, n ∉ g.nonTerminals
  antecedent_mem : ∀ p ∈ g.productions, p.antecedent ∈ g.nonTerminals
  name_declared : ∀ p ∈ g.productions, ∀ n ∈ p.names,
    n = epsilonName ∨ n ∈ g.nonTerminals ∨ n ∈ g.terminals

variable {g h : Grammar}

/-- Tags of one vocabulary mark `ε`, whatever that vocabulary is: no name in it
is reserved. -/
theorem marksEpsilon_of_retag {names : List String}
    (ht : ∀ p ∈ g.productions, p.retag names = p) : g.MarksEpsilon := by
  intro p hp
  constructor
  · intro h
    rw [Symbol.isEpsilon_iff.1 h]
    rfl
  · intro h
    have hfirst : (p.retag names).first = Symbol.ofName names p.first.name := rfl
    rw [ht p hp, h] at hfirst
    rw [hfirst]
    rfl

theorem Tagged.marksEpsilon (h : g.Tagged) : g.MarksEpsilon :=
  marksEpsilon_of_retag h

theorem MarksEpsilon.first_ne (h : g.MarksEpsilon) {p : Production} (hp : p ∈ g.productions)
    (hε : p.first.isEpsilon = false) : p.first.name ≠ epsilonName := by
  rw [Ne, ← h p hp, hε]
  exact Bool.false_ne_true

theorem Closed.marksEpsilon (h : g.Closed) : g.MarksEpsilon :=
  h.tagged.marksEpsilon

theorem Closed.rewritable (h : g.Closed) : g.Rewritable :=
  ⟨h.named, h.marksEpsilon, h.antecedent_mem⟩

/-- **Whatever was done to it, a grammar can be rewritten if its antecedents are
declared.** -/
theorem Reachable.rewritable (h : g.Reachable)
    (ha : ∀ p ∈ g.productions, p.antecedent ∈ g.nonTerminals) : g.Rewritable := by
  obtain ⟨names, -, htags⟩ := h.onceTagged
  exact ⟨h.named, marksEpsilon_of_retag htags, ha⟩

/-- A copy of a well-formed grammar is closed: copying tags it anew. -/
theorem closed_copy (hn : g.Named) (hw : g.WellFormed) : g.copy.Closed := by
  refine ⟨⟨hn.nonTerminals, hn.terminals⟩, tagged_retagged g g.nonTerminals, hw.disjoint, ?_, ?_⟩
  · intro p hp
    obtain ⟨q, hq, rfl⟩ := List.mem_map.1 hp
    rw [Production.antecedent_retag]
    exact hw.antecedent_mem q hq
  · intro p hp n hm
    obtain ⟨q, hq, rfl⟩ := List.mem_map.1 hp
    rw [Production.names_retag] at hm
    exact hw.name_declared hq hm

/-- A well-formed grammar that is tagged by its vocabulary is closed. -/
theorem WellFormed.closed (hw : g.WellFormed) (hn : g.Named) (ht : g.Tagged) : g.Closed :=
  ⟨hn, ht, hw.disjoint, hw.antecedent_mem, fun _ hp _ hm => hw.name_declared hp hm⟩

/-- Tags do not matter to rules. -/
theorem rule_copy_iff {n : String} {v : List String} : g.copy.Rule n v ↔ g.Rule n v := by
  constructor
  · rintro ⟨p, hp, rfl, rfl⟩
    obtain ⟨q, hq, rfl⟩ := List.mem_map.1 hp
    exact ⟨q, hq, by simp, by simp [Production.word]⟩
  · rintro ⟨p, hp, rfl, rfl⟩
    exact ⟨_, List.mem_map_of_mem hp, by simp, by simp [Production.word]⟩

/-! ### Symbols and rules of closed grammars -/

/-- A symbol of a consequent is a declared name of its kind, or `ε`. -/
theorem Closed.symbol_cases (h : g.Closed) {p : Production} (hp : p ∈ g.productions) {s : Symbol}
    (hs : s ∈ p.consequent) :
    s = .epsilon ∨ (∃ n ∈ g.nonTerminals, s = .nonTerminal n) ∨
      ∃ t ∈ g.terminals, s = .terminal t := by
  have hsymbol := h.tagged.eq_symbol hp hs
  rcases h.name_declared p hp s.name (List.mem_map_of_mem hs) with hε | hn | ht
  · rw [hε] at hsymbol
    exact .inl hsymbol
  · rw [h.named.symbol_of_mem hn] at hsymbol
    exact .inr (.inl ⟨_, hn, hsymbol⟩)
  · rw [symbol_of_notMem (fun hn => h.disjoint _ ht hn) (h.named.terminals.notMem_reserved _ ht)]
      at hsymbol
    exact .inr (.inr ⟨_, ht, hsymbol⟩)

theorem Closed.symbol_declared (h : g.Closed) : ∀ p ∈ g.productions, ∀ s ∈ p.consequent,
    s.isEpsilon = true ∨ s.name ∈ g.nonTerminals ∨ s.name ∈ g.terminals := by
  intro p hp s hs
  rcases h.symbol_cases hp hs with rfl | ⟨n, hn, rfl⟩ | ⟨t, ht, rfl⟩
  · exact .inl rfl
  · exact .inr (.inl hn)
  · exact .inr (.inr ht)

theorem Closed.rule_declared (hg : g.Closed) {n : String} {v : List String} (hr : g.Rule n v) :
    ∀ a ∈ v, a ∈ g.nonTerminals ∨ a ∈ g.terminals := by
  obtain ⟨p, hp, -, rfl⟩ := hr
  intro a ha
  obtain ⟨ha, hne⟩ := Production.mem_word_iff.1 ha
  exact (hg.name_declared p hp a ha).resolve_left hne

/-- Sides that write names of a production and new ones only are declared. -/
theorem Extension.Sound.declared {voc : Extension} (hvoc : Extension.Sound g voc) (hg : g.Closed)
    {p : Production} (hp : p ∈ g.productions) {s : Sides}
    (ha : s.antecedent = p.antecedent ∨ s.antecedent ∈ voc.primes.map (·.2))
    (hs : ∀ n ∈ s.names, n = epsilonName ∨ n ∈ p.names ∨ n ∈ voc.primes.map (·.2)) :
    s.Declared voc.nonTerminals g.terminals := by
  constructor
  · rcases ha with ha | ha
    · rw [ha]
      exact hvoc.mem_of_mem (hg.antecedent_mem p hp)
    · exact hvoc.mem_of_new ha
  · intro n hn
    rcases hs n hn with h | h | h
    · exact .inl h
    · exact (hg.name_declared p hp n h).imp_right (.imp_left hvoc.mem_of_mem)
    · exact .inr (.inl (hvoc.mem_of_new h))

/-- A grammar in which each rule of another one can be followed yields what
that one does, for names of which the condition holds. -/
theorem Yields.of_rules {D : String → Prop}
    (hkeep : ∀ a, D a → a ∉ g.nonTerminals → a ∉ h.nonTerminals)
    (hD : ∀ a v, g.Rule a v → ∀ b ∈ v, D b)
    (hrule : ∀ a v x, g.Rule a v → h.Yields v x → h.Yields [a] x) {u w : List String}
    (hy : g.Yields u w) (hu : ∀ a ∈ u, D a) : h.Yields u w := by
  induction hy with
  | nil => exact .nil
  | keep ha _ ih =>
    rw [List.forall_mem_cons] at hu
    exact .keep (hkeep _ hu.1 ha) (ih hu.2)
  | expand hr _ ih =>
    rw [List.forall_mem_cons] at hu
    have hih := ih fun b hb => (List.mem_append.1 hb).elim (hD _ _ hr b) (hu.2 b)
    obtain ⟨x, y, rfl, hx, hy⟩ := yields_append_iff.1 hih
    exact (hrule _ _ _ hr hx).append hy

/-! ### Adopting a rewriting -/

theorem word_tag (g : Grammar) (s : Sides) : (g.tag s).word = s.word := by
  cases hs : s.names with
  | nil => simp [tag, Production.word, Production.names, Sides.word, hs, Production.ofSymbols,
      Production.consequent, Symbol.name]
  | cons n ns => simp [tag, Production.word, Production.names, Sides.word, hs, Production.ofSymbols,
      Production.consequent, symbol, Function.comp_def]

theorem mem_names_tag {g : Grammar} {s : Sides} {n : String} (hn : n ∈ (g.tag s).names) :
    n = epsilonName ∨ n ∈ s.names := by
  cases hs : s.names with
  | nil =>
    left
    simpa [tag, Production.names, hs, Production.ofSymbols, Production.consequent,
      Symbol.name] using hn
  | cons m ms =>
    right
    simpa [tag, Production.names, hs, Production.ofSymbols, Production.consequent, symbol,
      Function.comp_def] using hn

theorem names_tag (g : Grammar) (s : Sides) : (g.tag s).names = Sides.orEpsilon s.names := by
  cases hs : s.names with
  | nil => simp [tag, Production.names, hs, Production.ofSymbols, Production.consequent,
      Symbol.name, Sides.orEpsilon]
  | cons n ns => simp [tag, Production.names, hs, Production.ofSymbols, Production.consequent,
      symbol, Function.comp_def, Sides.orEpsilon]

/-- Productions tagged from sides have the rules that the sides write. -/
theorem rule_iff_of_productions_eq {sides : List Sides} (hps : h.productions = sides.map g.tag)
    {n : String} {v : List String} :
    h.Rule n v ↔ ∃ s ∈ sides, s.antecedent = n ∧ s.word = v := by
  rw [Rule, hps]
  constructor
  · rintro ⟨p, hp, hn, hv⟩
    obtain ⟨s, hs, rfl⟩ := List.mem_map.1 hp
    rw [tag, Production.antecedent_ofSymbols] at hn
    rw [word_tag] at hv
    exact ⟨s, hs, hn, hv⟩
  · rintro ⟨s, hs, hn, hv⟩
    refine ⟨g.tag s, List.mem_map_of_mem hs, ?_, ?_⟩
    · rw [tag, Production.antecedent_ofSymbols]
      exact hn
    · rw [word_tag]
      exact hv

@[simp] theorem nonTerminals_rewritten (names introduced : List String) (sides : List Sides) :
    (g.rewritten names introduced sides).nonTerminals = names := rfl

@[simp] theorem terminals_rewritten (names introduced : List String) (sides : List Sides) :
    (g.rewritten names introduced sides).terminals = g.terminals := rfl

@[simp] theorem start_rewritten (names introduced : List String) (sides : List Sides) :
    (g.rewritten names introduced sides).start = g.start := rfl

theorem productions_rewritten (names introduced : List String) (sides : List Sides) :
    (g.rewritten names introduced sides).productions =
      sides.map (g.rewritten names introduced sides).tag := rfl

section

variable {voc : Extension} (hvoc : Extension.Sound g voc) (introduced : List String)
  {sides : List Sides}

include hvoc

/-- **The adoption of a rewriting does not fail**: nothing is trimmed or dropped,
for the names can be declared as they are. -/
theorem adopt_of_sound (hn : g.Named) (sides : List Sides) :
    adopt voc.nonTerminals introduced sides g =
      (.ok (), g.rewritten voc.nonTerminals introduced sides) :=
  adopt_of_declared hn introduced sides (declared_eq_self hvoc.declarable)

theorem named_rewritten (hn : g.Named) :
    (g.rewritten voc.nonTerminals introduced sides).Named :=
  ⟨hvoc.declarable, hn.terminals⟩

/-- What was rewritten can be rewritten again. -/
theorem rewritable_rewritten (hn : g.Named)
    (hsides : ∀ s ∈ sides, s.antecedent ∈ voc.nonTerminals) :
    (g.rewritten voc.nonTerminals introduced sides).Rewritable := by
  refine ⟨named_rewritten hvoc introduced hn,
    (tagged_of_productions_eq (productions_rewritten _ _ _)).marksEpsilon, fun p hp => ?_⟩
  obtain ⟨s, hs, rfl⟩ := List.mem_map.1 hp
  rw [tag, Production.antecedent_ofSymbols]
  exact hsides s hs

/-- A closed grammar that adopts sides over an extended vocabulary is closed. -/
theorem closed_rewritten (hg : g.Closed)
    (hsides : ∀ s ∈ sides, s.Declared voc.nonTerminals g.terminals) :
    (g.rewritten voc.nonTerminals introduced sides).Closed := by
  have hr := rewritable_rewritten hvoc introduced hg.named fun s hs => (hsides s hs).antecedent_mem
  refine ⟨hr.named, tagged_of_productions_eq (productions_rewritten _ _ _), ?_,
    hr.antecedent_mem, ?_⟩
  · intro n hn
    exact hvoc.notMem_of_declared (.inr hn) (hg.disjoint n hn)
  · intro p hp n hn
    obtain ⟨s, hs, rfl⟩ := List.mem_map.1 hp
    rcases mem_names_tag hn with rfl | hn
    · exact .inl rfl
    · exact (hsides s hs).name_declared n hn

end

end Grammar

end PredictiveParsing
