import PredictiveParsing.Proofs.Grammar.Validity
import PredictiveParsing.Proofs.Sets.Follow

/-
What the sets say about words, where empty words come last.

FIRST looks at first symbols alone and FOLLOW at right neighbours alone.  In
a grammar whose vanishing non-terminals stand at the end of consequents that
is enough to foresee how a word goes on.

* `Grammar.VanishesAtEnd` — the non-terminals that can vanish come last;
* `Tame.begins_of_yields`, `Tame.lead_mem_firstSet` — FIRST holds what the
  words of a name, or of a consequent, begin with;
* `Tame.yields_nil_of_begins` — only a name that can vanish can begin with
  `ε`;
* `Grammar.Guarded` — stacks whose non-terminals have in their FOLLOW sets
  whatever can come behind them;
* `Guarded.expand` — applying a production keeps a stack guarded.
-/
namespace PredictiveParsing

/-- What a word begins with: `ε` if it is empty. -/
def lead (w : List String) : String :=
  w.headD epsilonName

/-- What is in front of the machine when a word is left: the end marker if it
is empty. -/
def lookahead (w : List String) : String :=
  w.headD endName

namespace Grammar

/-- `ε` stands alone in a consequent, a non-terminal that can vanish stands at
the end of one, and behind another non-terminal only if `ε` is one of its own
consequents. -/
structure VanishesAtEnd (g : Grammar) : Prop where
  names_eq : ∀ p ∈ g.productions, epsilonName ∈ p.names → p.names = [epsilonName]
  behind_eq_nil : ∀ p ∈ g.productions, ∀ before n behind, p.names = before ++ n :: behind →
    n ∈ g.nonTerminals → g.Generates n [] → behind = []
  exists_epsilon : ∀ p ∈ g.productions, ∀ before m n behind,
    p.names = before ++ m :: n :: behind → m ∈ g.nonTerminals → n ∈ g.nonTerminals →
    g.Generates n [] → ∃ q ∈ g.productions, q.antecedent = n ∧ q.names = [epsilonName]

/-- Names that hold the antecedent of each production whose word they hold are
all that can vanish. -/
theorem mem_of_vanishes {g : Grammar} {names : List String}
    (hnames : ∀ p ∈ g.productions, (∀ a ∈ p.word, a ∈ names) → p.antecedent ∈ names)
    {n : String} (h : g.Generates n []) : n ∈ names := by
  have hall : ∀ u : List String, Spells (fun a x => x = [] → a ∈ names) u [] →
      ∀ a ∈ u, a ∈ names := by
    intro u
    induction u with
    | nil => simp
    | cons a u ih =>
      rintro ⟨x, y, he, hx, hy⟩
      obtain ⟨rfl, rfl⟩ := List.append_eq_nil_iff.1 he.symm
      exact List.forall_mem_cons.2 ⟨hx rfl, ih hy⟩
  have hs := (generates_iff.1 h).spells (S := fun a x => x = [] → a ∈ names)
    (fun a _ ha => by simp at ha) ?_
  · exact spells_singleton.1 hs rfl
  · rintro _ _ x ⟨p, hp, rfl, rfl⟩ hx rfl
    exact hnames p hp (hall _ hx)

/-- A way to see that vanishing names come last: a list that holds all of them,
each with an empty production, none of them before the end of a consequent. -/
theorem vanishesAtEnd_of_list {g : Grammar} (names : List String)
    (hnames : ∀ p ∈ g.productions, (∀ a ∈ p.word, a ∈ names) → p.antecedent ∈ names)
    (halone : ∀ p ∈ g.productions, epsilonName ∈ p.names → p.names = [epsilonName])
    (hlast : ∀ p ∈ g.productions, ∀ a ∈ p.names.dropLast, a ∉ names)
    (hempty : ∀ n ∈ names, ∃ q ∈ g.productions, q.antecedent = n ∧ q.names = [epsilonName]) :
    g.VanishesAtEnd := by
  refine ⟨halone, fun p hp before n behind he _ hn => ?_, fun _ _ _ _ n _ _ _ _ hn =>
    hempty n (mem_of_vanishes hnames hn)⟩
  by_contra hne
  refine hlast p hp n ?_ (mem_of_vanishes hnames hn)
  rw [he, List.dropLast_append_of_ne_nil (by simp), List.dropLast_cons_of_ne_nil hne]
  simp

/-- A valid grammar, tagged by its vocabulary, with the non-terminals that can
vanish at the end. -/
structure Tame (g : Grammar) : Prop where
  named : g.Named
  tagged : g.Tagged
  wellFormed : g.WellFormed
  vanishesAtEnd : g.VanishesAtEnd

variable {g : Grammar}

/-! ### First symbols -/

section

variable {p : Production} (h : g.Tame) (hp : p ∈ g.productions)

include h hp

theorem Tame.word_cases :
    p.names = [epsilonName] ∧ p.word = [] ∨ epsilonName ∉ p.names ∧ p.word = p.names := by
  by_cases he : epsilonName ∈ p.names
  · have hn := h.vanishesAtEnd.names_eq p hp he
    exact .inl ⟨hn, by rw [Production.word, hn]; rfl⟩
  · refine .inr ⟨he, List.filter_eq_self.2 fun n hn => ?_⟩
    simpa using fun hne : n = epsilonName => he (hne ▸ hn)

theorem Tame.first_mem {n : String} (hf : p.first = .nonTerminal n) : n ∈ g.nonTerminals :=
  h.tagged.first_mem hp hf

theorem Tame.first_notMem (hf : p.first.isNonTerminal = false) :
    p.first.name ∉ g.nonTerminals := by
  intro hn
  rw [h.tagged.first_eq hp, h.named.symbol_of_mem hn] at hf
  cases hf

end

/-! ### What words begin with -/

/-- FIRST of a consequent holds what it spells begins with, if that is so for
the names in it. -/
theorem Tame.lead_mem_of_spells (h : g.Tame) {p : Production} (hp : p ∈ g.productions)
    {S : String → List String → Prop} {x : List String} (hx : Spells S p.word x)
    (hyields : ∀ a y, S a y → g.Yields [a] y)
    (hbegins : ∀ a y, S a y → a ∈ g.nonTerminals → g.Begins a (lead y)) :
    lead x ∈ p.firstSet g.solveFirst.1 := by
  rw [mem_firstSet_iff]
  rcases h.word_cases hp with ⟨hn, hw⟩ | ⟨-, hw⟩
  · rw [hw] at hx
    obtain rfl : x = [] := hx
    have hname : p.first.name = epsilonName := (List.cons.inj hn).1
    left
    refine ⟨?_, hname⟩
    rw [h.tagged.first_eq hp, hname]
    rfl
  · rw [hw] at hx
    obtain ⟨y, z, rfl, hy, hz⟩ := hx
    -- The word begins with what the first symbol spells.
    cases hf : p.first.isNonTerminal with
    | false =>
      have hy := h.wellFormed.yields_singleton (h.first_notMem hp hf) (hyields _ _ hy)
      rw [hy]
      exact .inl ⟨rfl, rfl⟩
    | true =>
      obtain ⟨n, hn⟩ := exists_of_isNonTerminal hf
      have hmem := h.first_mem hp hn
      rw [hn] at hy
      refine .inr ⟨n, hn, mem_solveFirst_iff.2 ?_⟩
      have hb := hbegins n y hy hmem
      cases y with
      | cons a y => exact hb
      | nil =>
        -- A first symbol that vanishes is the only one.
        have hnames : p.names = [] ++ n :: p.rest.map Symbol.name := by
          rw [Production.names, Production.consequent, List.map_cons, hn]
          rfl
        have hrest := h.vanishesAtEnd.behind_eq_nil p hp _ _ _ hnames hmem
          (generates_iff.2 (hyields n [] hy))
        rw [hrest] at hz
        obtain rfl : z = [] := hz
        exact hb

/-- **A non-terminal can begin with whatever one of its words begins with.** -/
theorem Tame.begins_of_yields (h : g.Tame) {a : String} {x : List String}
    (hx : g.Yields [a] x) (ha : a ∈ g.nonTerminals) : g.Begins a (lead x) := by
  have hs := hx.spells (S := fun a x => g.Yields [a] x ∧ (a ∈ g.nonTerminals → g.Begins a (lead x)))
    (fun a hn => ⟨.keep hn .nil, fun ha => absurd ha hn⟩) ?_
  · exact (spells_singleton.1 hs).2 ha
  · rintro _ _ x ⟨p, hp, rfl, rfl⟩ hx
    have hy : g.Yields p.word x := yields_of_spells (hx.mono fun _ _ _ hb => hb.1)
    refine ⟨yields_of_rule ⟨p, hp, rfl, rfl⟩ hy, fun _ => begins_iff_exists.2 ⟨p, hp, rfl, ?_⟩⟩
    exact h.lead_mem_of_spells hp hx (fun _ _ hb => hb.1) fun _ _ hb => hb.2

theorem Tame.lead_mem_firstSet (h : g.Tame) {p : Production} (hp : p ∈ g.productions)
    {x : List String} (hx : g.Yields p.word x) : lead x ∈ p.firstSet g.solveFirst.1 :=
  h.lead_mem_of_spells hp (yields_iff_spells.1 hx) (fun _ _ hy => hy)
    fun _ _ hy ha => h.begins_of_yields hy ha

/-! ### What can vanish -/

/-- A consequent whose first symbol can vanish has no other. -/
theorem Tame.names_eq_of_vanishes (h : g.Tame) {p : Production} (hp : p ∈ g.productions)
    {n : String} (hf : p.first = .nonTerminal n) (hn : g.Yields [n] []) : p.names = [n] := by
  have hnames : p.names = [] ++ n :: p.rest.map Symbol.name := by
    rw [Production.names, Production.consequent, List.map_cons, hf]
    rfl
  have hrest := h.vanishesAtEnd.behind_eq_nil p hp _ _ _ hnames (h.first_mem hp hf)
    (generates_iff.2 hn)
  rw [hnames, hrest]
  rfl

/-- Only what can vanish can begin with `ε`. -/
theorem Tame.yields_nil_of_begins (h : g.Tame) {n : String} (hb : g.Begins n epsilonName) :
    g.Yields [n] [] := by
  generalize hx : epsilonName = x at hb
  induction hb with
  | @direct p hp hf =>
    have hmem : epsilonName ∈ p.names := hx ▸ List.mem_cons_self
    rcases h.word_cases hp with ⟨-, hw⟩ | ⟨hne, -⟩
    · exact yields_of_rule ⟨p, hp, rfl, hw⟩ .nil
    · exact absurd hmem hne
  | @through p m x hp hf hb ih =>
    have hm := ih hx
    have hnames := h.names_eq_of_vanishes hp hf hm
    have hne := h.named.nonTerminals.ne_epsilonName (h.first_mem hp hf)
    refine yields_of_rule ⟨p, hp, rfl, ?_⟩ hm
    rw [Production.word, hnames]
    simp [hne]

/-! ### Guarded stacks -/

/-- The FOLLOW sets of the productions. -/
abbrev followSets (g : Grammar) : Family :=
  (g.solveFollow g.solveFirst.1).1

/-- The names on the stack are declared, and the FOLLOW set of a non-terminal
holds whatever the stack below it can be about to read. -/
structure Guarded (g : Grammar) (stack : List String) : Prop where
  declared : ∀ a ∈ stack, a ∈ g.nonTerminals ∨ a ∈ g.terminals
  lookahead_mem : ∀ before n behind, stack = before ++ n :: behind → n ∈ g.nonTerminals →
    ∀ y, g.Yields behind y → lookahead y ∈ g.followSets.of n

theorem guarded_start {s : String} (hs : g.start = some s) (hn : s ∈ g.nonTerminals) :
    g.Guarded [s] := by
  refine ⟨by simp [hn], ?_⟩
  intro before n behind he _ y hy
  cases before with
  | nil =>
    obtain ⟨rfl, rfl⟩ := List.cons.inj he
    cases hy
    exact endName_mem_solveFollow hs
  | cons a before => simp at he

theorem Guarded.tail {a : String} {stack : List String} (h : g.Guarded (a :: stack)) :
    g.Guarded stack :=
  ⟨fun b hb => h.declared b (List.mem_cons_of_mem _ hb),
    fun before n behind he => h.lookahead_mem (a :: before) n behind (by rw [he]; rfl)⟩

/-- A neighbour that vanishes comes last, and has `ε` for a consequent. -/
theorem Tame.hasEpsilonProduction_of_vanishes (h : g.Tame) {p : Production}
    (hp : p ∈ g.productions) {before behind : List String} {n m : String}
    (hnames : p.names = before ++ n :: m :: behind) (hn : n ∈ g.nonTerminals)
    (hm : m ∈ g.nonTerminals) (hvanish : g.Generates m []) :
    behind = [] ∧ g.hasEpsilonProduction m = true := by
  obtain ⟨q, hq, rfl, hε⟩ :=
    h.vanishesAtEnd.exists_epsilon p hp before n m behind hnames hn hm hvanish
  refine ⟨h.vanishesAtEnd.behind_eq_nil p hp (before ++ [n]) _ behind (by simp [hnames]) hm hvanish,
    ?_⟩
  have hfirst : q.first.name = epsilonName := (List.cons.inj hε).1
  rw [hasEpsilonProduction, List.any_eq_true]
  refine ⟨q, hq, ?_⟩
  rw [h.tagged.first_eq hq, hfirst]
  simp [symbol, Symbol.ofName, Symbol.isEpsilon]

/-- What is behind a non-terminal of a consequent is about to read something
in its FOLLOW set, if that is so for the antecedent. -/
theorem Tame.lookahead_mem_of_word (h : g.Tame) {p : Production} (hp : p ∈ g.productions)
    {before behind below y : List String} {n : String} (hw : p.word = before ++ n :: behind)
    (hn : n ∈ g.nonTerminals)
    (hfollow : ∀ y, g.Yields below y → lookahead y ∈ g.followSets.of p.antecedent)
    (hy : g.Yields (behind ++ below) y) : lookahead y ∈ g.followSets.of n := by
  have hnames : p.names = before ++ n :: behind := by
    rcases h.word_cases hp with ⟨-, hnil⟩ | ⟨-, he⟩
    · rw [hnil] at hw
      simp at hw
    · rw [← he, hw]
  have hconsequent : p.consequent =
      before.map g.symbol ++ .nonTerminal n :: behind.map g.symbol := by
    rw [h.tagged.consequent_eq hp, hnames, List.map_append, List.map_cons,
      h.named.symbol_of_mem hn]
  have hdeclared : ∀ a ∈ behind, a ∈ g.nonTerminals ∨ a ∈ g.terminals := by
    intro a ha
    exact h.wellFormed.word_declared hp (by simp [hw, ha])
  -- The right neighbour decides: there is none, or it is a non-terminal or a terminal.
  cases behind with
  | nil => exact mem_solveFollow_of_last hp hconsequent (hfollow y hy)
  | cons m behind =>
    rw [List.cons_append] at hy
    obtain ⟨x, z, rfl, hx, hz⟩ := yields_cons_iff.1 hy
    rw [List.map_cons] at hconsequent
    by_cases hm : m ∈ g.nonTerminals
    · rw [h.named.symbol_of_mem hm] at hconsequent
      cases x with
      | nil =>
        -- The neighbour vanishes: it comes last and has `ε` for a consequent, so the
        -- antecedent decides.
        obtain ⟨rfl, hempty⟩ := h.hasEpsilonProduction_of_vanishes hp hnames hn hm
          (generates_iff.2 hx)
        exact mem_solveFollow_of_empty hp hconsequent hempty (hfollow z hz)
      | cons a x =>
        -- Otherwise its word begins with something in its FIRST set.
        have ha : a ∈ g.terminals := h.wellFormed.mem_terminals_of_yields hx
          (by simp [hm]) a List.mem_cons_self
        exact mem_solveFollow_of_first hp hconsequent
          (mem_solveFirst_iff.2 (h.begins_of_yields hx hm)) (h.named.terminals.ne_epsilonName ha)
    · have hterminal : m ∈ g.terminals := (hdeclared m List.mem_cons_self).resolve_left hm
      rw [symbol_of_notMem hm (h.named.terminals.notMem_reserved m hterminal)] at hconsequent
      rw [h.wellFormed.yields_singleton hm hx]
      exact mem_solveFollow_of_terminal hp hconsequent

/-- **Applying a production keeps a stack guarded.** -/
theorem Guarded.expand (h : g.Tame) {p : Production} (hp : p ∈ g.productions)
    {below : List String} (hg : g.Guarded (p.antecedent :: below)) :
    g.Guarded (p.word ++ below) := by
  refine ⟨fun a ha => ?_, fun before n behind he hn y hy => ?_⟩
  · rcases List.mem_append.1 ha with ha | ha
    · exact h.wellFormed.word_declared hp ha
    · exact hg.declared a (List.mem_cons_of_mem _ ha)
  -- The non-terminal stands in the stack below or in the word put on top of it.
  · have hfollow := hg.lookahead_mem [] p.antecedent below rfl (h.wellFormed.antecedent_mem p hp)
    rcases List.append_eq_append_iff.1 he with ⟨c, rfl, hc⟩ | ⟨c, hc, hd⟩
    · exact hg.lookahead_mem (p.antecedent :: c) n behind (by rw [hc]; rfl) hn y hy
    · cases c with
      | nil => exact hg.lookahead_mem [p.antecedent] n behind (by rw [hd]; rfl) hn y hy
      | cons a c =>
        obtain ⟨rfl, rfl⟩ := List.cons.inj hd
        exact h.lookahead_mem_of_word hp hc hn hfollow hy

end Grammar

end PredictiveParsing
