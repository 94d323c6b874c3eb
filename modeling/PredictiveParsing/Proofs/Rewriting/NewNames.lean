import PredictiveParsing.Proofs.Rewriting.NormalForm
import PredictiveParsing.Proofs.Rewriting.Usage

/-
What a rewriting does to the vocabulary.

Terminals and start symbol stay.  The non-terminals stay in their order, and
among them stand new ones: one for each left recursive antecedent, or one for
each group that is factored.

* `Grammar.Extends` — a grammar has the vocabulary of another one and new
  non-terminals, each named after an antecedent, defined and used;
* `Removal.extends_primes`, `Round.extends_primes` — what the rewritings add;
* `Round.mem_keys_iff` — the groups that are given names;
* `rewriting_extends` — both for well-formed grammars.

Design notes:

* Which names are new is told as a list of pairs.  A removal pairs them with
  antecedents, a round with an antecedent and what its group begins with.
-/
namespace PredictiveParsing

namespace Grammar

/-- The grammar `r` is `g` with the non-terminals in `added`, each behind the
antecedent that it is named after. -/
structure Extends (r g : Grammar) (added : List (String × String)) : Prop where
  terminals_eq : r.terminals = g.terminals
  start_eq : r.start = g.start
  sublist : g.nonTerminals.Sublist r.nonTerminals
  perm : r.nonTerminals.Perm (g.nonTerminals ++ added.map (·.2))
  nodup : (added.map (·.2)).Nodup
  notMem : ∀ e ∈ added, e.2 ∉ g.nonTerminals ∧ e.2 ∉ g.terminals
  primed : ∀ e ∈ added, ∃ k, e.2 = prime^[k + 1] e.1
  defined : ∀ e ∈ added, ∃ p ∈ r.productions, p.antecedent = e.2
  used : ∀ e ∈ added, ∃ p ∈ r.productions, e.2 ∈ p.names

variable {g r : Grammar} {policy : CollisionPolicy} {voc : Extension}
  {names : List ((String × String) × String)} {sides : List Sides}

/-- The vocabulary of a rewriting is extended, if what is new is defined and
used. -/
theorem Extension.Sound.extends_of (hvoc : Extension.Sound g voc)
    (hr : r = g.rewritten voc.nonTerminals (voc.primes.map (·.2)) sides)
    (hdefined : ∀ e ∈ voc.primes, ∃ s ∈ sides, s.antecedent = e.2)
    (hused : ∀ n ∈ voc.primes.map (·.2), n ∈ r.usedNames) : r.Extends g voc.primes := by
  subst hr
  exact
    { terminals_eq := rfl
      start_eq := rfl
      sublist := hvoc.sublist
      perm := hvoc.perm
      nodup := hvoc.nodup
      notMem := fun e he => hvoc.notMem e.2 (List.mem_map_of_mem he)
      primed := fun e he => (hvoc.primed e he).2
      defined := by
        intro e he
        obtain ⟨s, hs, ha⟩ := hdefined e he
        refine ⟨_, List.mem_map_of_mem hs, ?_⟩
        rw [tag, Production.antecedent_ofSymbols, ha]
      used := fun e he => mem_usedNames_iff.1 (hused e.2 (List.mem_map_of_mem he)) }

/-! ### Removals -/

/-- What a removal adds is closed by an empty production. -/
theorem Removal.extends_primes (hr : g.Removal r voc) : r.Extends g voc.primes := by
  refine hr.sound.extends_of hr.eq_rewritten (fun e he => ?_) fun n hn => hr.mem_usedNames_of_new hn
  obtain ⟨p, hp, -, hm⟩ := hr.exists_of_mem_primes he
  exact ⟨_, hr.mem_sides_iff.2 (.close hp hm), rfl⟩

theorem Removal.mem_keys_iff (hr : g.Removal r voc) {a : String} :
    a ∈ voc.primes.map (·.1) ↔ ∃ p ∈ g.productions, p.antecedent = a ∧ p.first.name = a := by
  have hkeys : voc.primes.map (·.1) = g.leftRecursive := hr.keys_eq
  rw [hkeys, mem_leftRecursive_iff]
  refine exists_congr fun p => and_congr_right fun _ => ?_
  rw [Production.isLeftRecursive, beq_iff_eq]
  constructor
  · rintro ⟨h, rfl⟩
    exact ⟨rfl, h⟩
  · rintro ⟨rfl, h⟩
    exact ⟨h, rfl⟩

/-! ### Rounds -/

/-- What a round adds has the rests of its group for productions. -/
theorem Round.extends_primes (hr : g.Round policy r voc names sides) : r.Extends g voc.primes := by
  refine hr.sound.extends_of hr.eq_rewritten (fun e he => ?_) fun n hn => hr.mem_usedNames_of_new hn
  rw [hr.primes_eq] at he
  obtain ⟨k, hk, rfl⟩ := List.mem_map.1 he
  obtain ⟨p, hp, hgrouped, hkey⟩ := hr.divides.exists_key k hk
  have hmem : (groupKey p, k.2) ∈ names := by rw [hkey]; exact hk
  exact ⟨_, hr.mem_sides_iff.2 (.rest hp hgrouped hmem), rfl⟩

/-- A key occurs as often as there are productions with its antecedent that begin
with its name. -/
theorem count_keys (g : Grammar) {a x : String} (hx : x ≠ epsilonName) :
    g.keys.count (a, x) =
      g.productions.countP fun p => p.antecedent = a ∧ p.first.name = x := by
  rw [keys, List.count_filterMap]
  refine List.countP_congr fun p _ => ?_
  rw [Production.key?_sides]
  by_cases hp : p.first.name = epsilonName
  · simp [hp, Ne.symm hx]
  · simp [hp]

theorem MarksEpsilon.isGrouped_iff_countP (hε : g.MarksEpsilon) {p : Production}
    (hp : p ∈ g.productions) : g.isGrouped p = true ↔ p.first.name ≠ epsilonName ∧
      1 < g.productions.countP fun q =>
        q.antecedent = p.antecedent ∧ q.first.name = p.first.name := by
  rw [hε.isGrouped_iff hp, Production.key?_sides]
  by_cases hε : p.first.name = epsilonName
  · simp [hε]
  · simp [hε, count_keys]

/-- **The groups that a round names**: those of two productions or more that do
not begin with `ε`. -/
theorem Round.mem_keys_iff (hr : g.Round policy r voc names sides) (hε : g.MarksEpsilon)
    {a x : String} : (a, x) ∈ names.map (·.1) ↔ x ≠ epsilonName ∧
      1 < g.productions.countP fun p => p.antecedent = a ∧ p.first.name = x := by
  constructor
  · intro hk
    obtain ⟨e, he, hkey⟩ := List.mem_map.1 hk
    obtain ⟨p, hp, hgrouped, hpe⟩ := hr.divides.exists_key e he
    obtain ⟨rfl, rfl⟩ := Prod.mk.inj (hpe.trans hkey)
    exact (hε.isGrouped_iff_countP hp).1 hgrouped
  · rintro ⟨hx, hcount⟩
    obtain ⟨p, hp, hkey⟩ := List.countP_pos_iff.1 (Nat.zero_lt_of_lt hcount)
    obtain ⟨rfl, rfl⟩ : p.antecedent = a ∧ p.first.name = x := by simpa using hkey
    have hgrouped := (hε.isGrouped_iff_countP hp).2 ⟨hx, hcount⟩
    obtain ⟨n, hn⟩ := (hr.divides.exists_name p hp hgrouped).resolve_left (by simp)
    exact List.mem_map_of_mem hn

/-! ### The operations -/

/-- **What the rewritings of a well-formed grammar do to its vocabulary.**  They
leave terminals and start symbol alone and put new non-terminals between the old
ones: the removal of left recursion one for each left recursive antecedent, a
round of left factoring one for each antecedent and name, other than `ε`, that
two productions or more begin with.  The new names are distinct and were not
declared; each is the antecedent with apostrophes behind it, has a production
and occurs in a consequent. -/
theorem rewriting_extends (hg : g.Reachable) (hvalid : Diagnostic.hasErrors g.problems = false) :
    (g.eliminateLeftRecursion policy = (.ok true, r) → ∃ added, r.Extends g added ∧
      (added.map (·.1)).Nodup ∧
      ∀ a, a ∈ added.map (·.1) ↔ ∃ p ∈ g.productions, p.antecedent = a ∧ p.first.name = a) ∧
    (g.leftFactor policy = (.ok true, r) → ∃ named : List ((String × String) × String),
      r.Extends g (named.map fun e => (e.1.1, e.2)) ∧ (named.map (·.1)).Nodup ∧
      ∀ a x, (a, x) ∈ named.map (·.1) ↔ x ≠ epsilonName ∧
        1 < g.productions.countP fun p => p.antecedent = a ∧ p.first.name = x) := by
  have hrewritable := hg.rewritable (wellFormed_iff.1 hvalid).antecedent_mem
  constructor
  · intro he
    rcases eliminateLeftRecursion_outcome hrewritable he with ⟨hfalse, -⟩ | ⟨-, voc, hr⟩
    · cases hfalse
    · exact ⟨voc.primes, hr.extends_primes, hr.nodup_keys, fun _ => hr.mem_keys_iff⟩
  · intro he
    rcases leftFactor_outcome hrewritable he with ⟨hfalse, -⟩ | ⟨-, voc, names, sides, hr⟩
    · cases hfalse
    · have hextends := hr.extends_primes
      rw [hr.primes_eq] at hextends
      exact ⟨names, hextends, hr.divides.nodup, fun _ _ => hr.mem_keys_iff hrewritable.marksEpsilon⟩

/-- A grammar with a name in the way of those that the rewritings make: the
removal passes over it, and a round over the name it gave before as well. -/
theorem rewriting_extends_passed_over :
    let items : List ProductionItem := [.sides ⟨"S", ["S", "a"]⟩, .sides ⟨"S", ["S", "b"]⟩,
      .sides ⟨"S", ["c", "S'"]⟩, .sides ⟨"S", ["c"]⟩, .sides ⟨"S'", ["a"]⟩]
    let g : Grammar :=
      { nonTerminals := ["S", "S'"], terminals := ["a", "b", "c"], start := some "S"
        productions := [⟨"S", .nonTerminal "S", [.terminal "a"]⟩,
          ⟨"S", .nonTerminal "S", [.terminal "b"]⟩, ⟨"S", .terminal "c", [.nonTerminal "S'"]⟩,
          ⟨"S", .terminal "c", []⟩, ⟨"S'", .terminal "a", []⟩] }
    let removed : Grammar :=
      { nonTerminals := ["S", "S'", "S''"], terminals := ["a", "b", "c"], start := some "S"
        introduced := ["S''"]
        productions := [⟨"S''", .terminal "a", [.nonTerminal "S''"]⟩,
          ⟨"S''", .terminal "b", [.nonTerminal "S''"]⟩,
          ⟨"S", .terminal "c", [.nonTerminal "S'", .nonTerminal "S''"]⟩,
          ⟨"S", .terminal "c", [.nonTerminal "S''"]⟩, ⟨"S''", .epsilon, []⟩,
          ⟨"S'", .terminal "a", []⟩] }
    let factored : Grammar :=
      { nonTerminals := ["S", "S'", "S''", "S'''"], terminals := ["a", "b", "c"]
        start := some "S", introduced := ["S''", "S'''"]
        productions := [⟨"S", .nonTerminal "S", [.nonTerminal "S''"]⟩, ⟨"S''", .terminal "a", []⟩,
          ⟨"S''", .terminal "b", []⟩, ⟨"S", .terminal "c", [.nonTerminal "S'''"]⟩,
          ⟨"S'''", .nonTerminal "S'", []⟩, ⟨"S'''", .epsilon, []⟩, ⟨"S'", .terminal "a", []⟩] }
    build "" "" ["S", "S'"] ["a", "b", "c"] items (some "S") = .ok g ∧
      Diagnostic.hasErrors g.problems = false ∧
      (g.eliminateLeftRecursion .rename = (.ok true, removed) ∧
        ∃ added, removed.Extends g added ∧ (added.map (·.1)).Nodup ∧ ∀ a,
          a ∈ added.map (·.1) ↔ ∃ p ∈ g.productions, p.antecedent = a ∧ p.first.name = a) ∧
      (g.leftFactor .rename = (.ok true, factored) ∧
        ∃ named : List ((String × String) × String),
          factored.Extends g (named.map fun e => (e.1.1, e.2)) ∧ (named.map (·.1)).Nodup ∧ ∀ a x,
            (a, x) ∈ named.map (·.1) ↔ x ≠ epsilonName ∧
              1 < g.productions.countP fun p => p.antecedent = a ∧ p.first.name = x) := by
  intro items g removed factored
  have hbuild : build "" "" ["S", "S'"] ["a", "b", "c"] items (some "S") = .ok g := rfl
  have hvalid : Diagnostic.hasErrors g.problems = false := by decide +kernel
  have hremoved : g.eliminateLeftRecursion .rename = (.ok true, removed) := by decide +kernel
  have hfactored : g.leftFactor .rename = (.ok true, factored) := by decide +kernel
  exact ⟨hbuild, hvalid, ⟨hremoved, (rewriting_extends (.build hbuild) hvalid).1 hremoved⟩,
    hfactored, (rewriting_extends (.build hbuild) hvalid).2 hfactored⟩

end Grammar

end PredictiveParsing
