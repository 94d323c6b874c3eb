import Mathlib.Data.Fintype.Card
import Mathlib.Data.Fintype.EquivFin
import Mathlib.Data.Fintype.Sets
import PredictiveParsing.Grammar.Normalization
import PredictiveParsing.Proofs.Sets.Lookahead
import PredictiveParsing.Proofs.Simulation.Outcome
import PredictiveParsing.Proofs.Table.Prediction

/-
When the machine stops.

Without consuming input the stack can only grow by expanding what comes to its
top.  If the same non-terminal came there again, a chain of productions would
lead from it to itself through names that vanish.

* `Grammar.Leads`, `Grammar.HidesLeftRecursion` — such chains, and grammars
  that have one with something before the non-terminal;
* `Grammar.Brings` — what the cells for one lookahead bring to the top;
* `not_begins_of_closed`, `not_transGen_brings` — without conflicts that is no
  cycle, unless left recursion is hidden;
* `stops_of_not_hidesLeftRecursion`, `run_ends_of_not_hidesLeftRecursion` — so
  the machine stops;
* `exists_endless_run` — where left recursion is hidden it may not.

Design notes:

* Left recursion in the open needs no assumption.  A cycle of first symbols
  has a FIRST set without the lookahead, and it cannot vanish either, so that
  its cells are empty.
* Nothing is said of the FOLLOW sets.  They decide which cells are filled, but
  any filling without conflicts will do.
-/
namespace PredictiveParsing

namespace Grammar

/-- A production of `n` has the non-terminal `m` behind names that vanish. -/
def Leads (g : Grammar) (before : List String) (n m : String) : Prop :=
  ∃ p ∈ g.productions, p.antecedent = n ∧ (∃ behind, p.names = before ++ m :: behind) ∧
    m ∈ g.nonTerminals ∧ ∀ a ∈ before, g.Generates a []

/-- **Hidden left recursion**: a non-terminal comes back to the front behind
names that vanish, at least one of them. -/
def HidesLeftRecursion (g : Grammar) : Prop :=
  ∃ before n m, before ≠ [] ∧ g.Leads before n m ∧
    Relation.ReflTransGen (fun n m => ∃ before, g.Leads before n m) m n

/-- In front of the lookahead `a`, the cell of `n` holds a production that has
`m` behind names that vanish. -/
def Brings (g : Grammar) (a : String) (before : List String) (n m : String) : Prop :=
  ∃ p, (g.buildTable [] []).1.get? n a = some (.production p) ∧
    (∃ behind, p.names = before ++ m :: behind) ∧ m ∈ g.nonTerminals ∧
    ∀ b ∈ before, g.Generates b []

variable {g : Grammar} {a : String}

/-! ### Seeing that nothing is hidden -/

/-- The names that can come to the front of a consequent, if those of a list
are all that can vanish. -/
def frontNames (vanishing : List String) : List String → List String
  | [] => []
  | n :: ns => n :: if n ∈ vanishing then frontNames vanishing ns else []

theorem mem_frontNames {vanishing before behind : List String} {m : String}
    (hb : ∀ a ∈ before, a ∈ vanishing) : m ∈ frontNames vanishing (before ++ m :: behind) := by
  induction before with
  | nil => simp [frontNames]
  | cons a before ih =>
    have ha := hb a (by simp)
    rw [List.cons_append, frontNames, if_pos ha]
    exact List.mem_cons_of_mem _ (ih fun b hm => hb b (by simp [hm]))

/-- A way to see that no left recursion is hidden: a list with all names that
can vanish, and ranks that get smaller from an antecedent to the non-terminals
that can come to the front. -/
theorem not_hidesLeftRecursion_of_rank (vanishing : List String) (rank : String → Nat)
    (hnames : ∀ p ∈ g.productions, (∀ a ∈ p.word, a ∈ vanishing) → p.antecedent ∈ vanishing)
    (hrank : ∀ p ∈ g.productions, ∀ m ∈ frontNames vanishing p.names, m ∈ g.nonTerminals →
      rank m < rank p.antecedent) : ¬ g.HidesLeftRecursion := by
  have hless : ∀ before n m, g.Leads before n m → rank m < rank n := by
    rintro before n m ⟨p, hp, rfl, ⟨behind, hb⟩, hm, hvanish⟩
    refine hrank p hp m ?_ hm
    rw [hb]
    exact mem_frontNames fun a ha => mem_of_vanishes hnames (hvanish a ha)
  have hle : ∀ n m, Relation.ReflTransGen (fun n m => ∃ before, g.Leads before n m) n m →
      rank m ≤ rank n := by
    intro n m h
    induction h with
    | refl => exact Nat.le_refl _
    | tail _ h ih =>
      obtain ⟨before, h⟩ := h
      exact (hless _ _ _ h).le.trans ih
  rintro ⟨before, n, m, -, hlead, hback⟩
  have hback := hle m n hback
  have hlt := hless before n m hlead
  omega

/-! ### What the cells bring to the top -/

theorem Brings.leads (hc : (g.buildTable [] []).1.isConflictFree = true) {before : List String}
    {n m : String} (h : g.Brings a before n m) : g.Leads before n m := by
  obtain ⟨p, hp, hb, hm, hvanish⟩ := h
  obtain ⟨q, hq, hpre, he⟩ := (get?_eq_some_iff_of_isConflictFree hc).1 hp
  cases he
  exact ⟨p, hq, hpre.1, hb, hm, hvanish⟩

/-- What a chain of first symbols begins with cannot be predicted in rows whose
cells only lead from one to the other. -/
theorem not_begins_of_closed (hr : g.Recalls)
    (hc : (g.buildTable [] []).1.isConflictFree = true) {C : String → Prop}
    (hC : ∀ n, C n → ∃ p, (g.buildTable [] []).1.get? n a = some (.production p) ∧
      p.first.name ∈ g.nonTerminals ∧ C p.first.name)
    {x : String} (hx : x ∉ g.nonTerminals)
    (hpre : ∀ p ∈ g.productions, C p.antecedent → x ∈ p.firstSet g.knownSets.1 →
      g.Predicts p p.antecedent a)
    {n : String} (hb : g.Begins n x) : ¬ C n := by
  -- Without conflicts the cell holds the production that the chain goes through.
  have hcell : ∀ p ∈ g.productions, C p.antecedent → x ∈ p.firstSet g.knownSets.1 →
      p.first.name ∈ g.nonTerminals ∧ C p.first.name := by
    intro p hp hCp hxp
    obtain ⟨q, hq, hfirst⟩ := hC _ hCp
    have hpcell : (g.buildTable [] []).1.get? p.antecedent a = some (.production p) :=
      (get?_eq_some_iff_of_isConflictFree hc).2 ⟨p, hp, hpre p hp hCp hxp, rfl⟩
    rw [hpcell] at hq
    cases hq
    exact hfirst
  induction hb with
  | @direct p hp hf =>
    intro hCp
    exact hx (hcell p hp hCp (mem_firstSet_iff.2 (.inl ⟨hf, rfl⟩))).1
  | @through p m x hp hf hm ih =>
    intro hCp
    have hfirst : x ∈ p.firstSet g.knownSets.1 :=
      mem_firstSet_iff.2 (.inr ⟨m, hf, hr.mem_knownSets_fst_iff.2 hm⟩)
    have hnext := (hcell p hp hCp hfirst).2
    rw [hf] at hnext
    exact ih hx hpre hcell hnext

/-- **No cells only lead from one to the other by their first symbols.** -/
theorem not_of_closed (hr : g.Recalls) (hc : (g.buildTable [] []).1.isConflictFree = true)
    (ha : a ∉ g.nonTerminals) (hne : a ≠ epsilonName) (hε : epsilonName ∉ g.nonTerminals)
    {C : String → Prop}
    (hC : ∀ n, C n → ∃ p, (g.buildTable [] []).1.get? n a = some (.production p) ∧
      p.first.name ∈ g.nonTerminals ∧ C p.first.name)
    (n : String) : ¬ C n := by
  have hbegins : ∀ p ∈ g.productions, ∀ x ∈ p.firstSet g.knownSets.1, g.Begins p.antecedent x := by
    intro p hp x hx
    rcases mem_firstSet_iff.1 hx with ⟨hf, rfl⟩ | ⟨m, hf, hm⟩
    · exact .direct hp hf
    · exact .through hp hf (hr.mem_knownSets_fst_iff.1 hm)
  -- No such row begins with the lookahead.
  have hfirst : ∀ n, C n → ¬ g.Begins n a := by
    intro n hn hb
    exact not_begins_of_closed hr hc hC ha (fun p hp _ hx => ⟨rfl, .inl ⟨hx, hne⟩⟩) hb hn
  -- So it is filled because the row can vanish and the lookahead can follow.
  have hfollow : ∀ n, C n → g.Begins n epsilonName ∧ a ∈ g.knownSets.2.1.of n := by
    intro n hn
    obtain ⟨p, hp, -⟩ := hC n hn
    obtain ⟨q, hq, ⟨rfl, hsel⟩, he⟩ := (get?_eq_some_iff_of_isConflictFree hc).1 hp
    rcases hsel with ⟨hx, -⟩ | ⟨hx, hfol⟩
    · exact absurd (hbegins q hq a hx) (hfirst _ hn)
    · exact ⟨hbegins q hq _ hx, hfol⟩
  -- But then the chain down to `ε` is predicted as well.
  intro hn
  refine not_begins_of_closed hr hc hC hε (fun p hp hCp hx => ?_) (hfollow n hn).1 hn
  exact ⟨rfl, .inr ⟨hx, (hfollow _ hCp).2⟩⟩

/-- A way through steps of a family either only takes those of the index `[]`
or takes another one somewhere. -/
theorem transGen_cases {R : List String → String → String → Prop} {n m : String}
    (h : Relation.TransGen (fun n m => ∃ before, R before n m) n m) :
    Relation.TransGen (R []) n m ∨
      ∃ before k l, before ≠ [] ∧ R before k l ∧
        Relation.ReflTransGen (fun n m => ∃ before, R before n m) n k ∧
        Relation.ReflTransGen (fun n m => ∃ before, R before n m) l m := by
  induction h with
  | single h =>
    obtain ⟨before, h⟩ := h
    by_cases hb : before = []
    · exact .inl (.single (hb ▸ h))
    · exact .inr ⟨before, _, _, hb, h, .refl, .refl⟩
  | tail hpath h ih =>
    rcases ih with ih | ⟨before, k, l, hb, hkl, hk, hl⟩
    · obtain ⟨before, h⟩ := h
      by_cases hb : before = []
      · exact .inl (ih.tail (hb ▸ h))
      · exact .inr ⟨before, _, _, hb, h, hpath.to_reflTransGen, .refl⟩
    · exact .inr ⟨before, k, l, hb, hkl, hk, hl.tail h⟩

/-- **What the cells for a lookahead bring to the top never comes back.** -/
theorem not_transGen_brings (hn : g.Named) (hr : g.Recalls)
    (hc : (g.buildTable [] []).1.isConflictFree = true) (hh : ¬ g.HidesLeftRecursion)
    (ha : a ∉ g.nonTerminals) (hne : a ≠ epsilonName) (n : String) :
    ¬ Relation.TransGen (fun n m => ∃ before, g.Brings a before n m) n n := by
  intro hcycle
  rcases transGen_cases hcycle with hopen | ⟨before, k, l, hb, hkl, hk, hl⟩
  · -- All names on the cycle are first symbols.
    refine not_of_closed hr hc ha hne (fun h => hn.nonTerminals.ne_epsilonName h rfl)
      (C := fun k => Relation.TransGen (g.Brings a []) k k) ?_ n hopen
    intro k hk
    obtain ⟨m, hkm, hmk⟩ := Relation.TransGen.head'_iff.1 hk
    obtain ⟨p, hp, ⟨behind, hb⟩, hm, -⟩ := id hkm
    obtain rfl : p.first.name = m := (List.cons.inj hb).1
    exact ⟨p, hp, hm, Relation.TransGen.tail' hmk hkm⟩
  · refine hh ⟨before, k, l, hb, hkl.leads hc, ?_⟩
    refine Relation.ReflTransGen.mono ?_ _ _ (hl.trans hk)
    rintro n m ⟨before, h⟩
    exact ⟨before, h.leads hc⟩

/-- So going from what a cell brings to the top to what its cell brings there
comes to an end. -/
theorem wellFounded_brings (hn : g.Named) (hr : g.Recalls)
    (hc : (g.buildTable [] []).1.isConflictFree = true) (hh : ¬ g.HidesLeftRecursion)
    (ha : a ∉ g.nonTerminals) (hne : a ≠ epsilonName) :
    WellFounded fun m n : {n // n ∈ g.nonTerminals} => ∃ before, g.Brings a before n m := by
  have hup : WellFounded (Relation.TransGen
      fun m n : {n // n ∈ g.nonTerminals} => ∃ before, g.Brings a before n m) := by
    have : Std.Irrefl (Relation.TransGen
        fun m n : {n // n ∈ g.nonTerminals} => ∃ before, g.Brings a before n m) := by
      refine ⟨fun n hcycle => not_transGen_brings hn hr hc hh ha hne n ?_⟩
      exact (Relation.transGen_swap.1 hcycle).lift Subtype.val fun _ _ h => h
    exact Finite.wellFounded_of_trans_of_irrefl _
  exact Subrelation.wf (fun h => .single h) hup

/-! ### The machine stops -/

theorem yields_nil_of_forall {u : List String} (hu : ∀ b ∈ u, g.Generates b []) :
    g.Yields u [] := by
  induction u with
  | nil => exact .nil
  | cons b u ih =>
    exact (generates_iff.1 (hu b (by simp))).append (ih fun c hc => hu c (by simp [hc]))

/-- A name one of whose consequents vanishes can vanish. -/
theorem generates_nil_of_names {p : Production} (hp : p ∈ g.productions)
    (hv : ∀ b ∈ p.names, b ≠ epsilonName → g.Generates b []) : g.Generates p.antecedent [] := by
  refine generates_iff.2 (yields_of_rule ⟨p, hp, rfl, rfl⟩ (yields_nil_of_forall fun b hb => ?_))
  obtain ⟨hm, hne⟩ := Production.mem_word_iff.1 hb
  exact hv b hm hne

section

variable (hg : g.Reachable) (hc : (g.buildTable [] []).1.isConflictFree = true)

include hc

/-- The machine stops behind an expansion, if it stops with each non-terminal
that the cell brings to the top, and below the antecedent in case that can
vanish. -/
theorem stops_yield (hend : endName ∉ g.nonTerminals) {later below : List String} {n : String}
    {p : Production} (hp : (g.buildTable [] []).1.get? n a = some (.production p))
    (hlater : ∀ stack, Stops g (g.buildTable [] []).1 stack later)
    (htop : ∀ before m below, g.Brings a before n m →
      (g.Generates m [] → Stops g (g.buildTable [] []).1 below (a :: later)) →
      Stops g (g.buildTable [] []).1 (m :: below) (a :: later))
    (hbelow : g.Generates n [] → Stops g (g.buildTable [] []).1 below (a :: later)) :
    Stops g (g.buildTable [] []).1 (p.yield.map Symbol.name ++ below) (a :: later) := by
  obtain ⟨q, hq, ⟨rfl, -⟩, he⟩ := (get?_eq_some_iff_of_isConflictFree hc).1 hp
  cases he
  -- The names in front have vanished; the induction is on those that are left.
  have hrest : ∀ rest before, p.names = before ++ rest → (∀ b ∈ before, g.Generates b []) →
      Stops g (g.buildTable [] []).1 (rest ++ below) (a :: later) := by
    intro rest
    induction rest with
    | nil =>
      intro before hb hv
      rw [List.append_nil] at hb
      exact hbelow (generates_nil_of_names hq fun b hm _ => hv b (hb ▸ hm))
    | cons m rest ih =>
      intro before hb hv
      by_cases hm : m ∈ g.nonTerminals
      · refine htop before m _ ⟨p, hp, ⟨rest, hb⟩, hm, hv⟩ fun hvanish => ?_
        refine ih (before ++ [m]) (by simp [hb]) fun b hbm => ?_
        rcases List.mem_append.1 hbm with hbm | hbm
        · exact hv b hbm
        · rwa [List.mem_singleton.1 hbm]
      · exact stops_cons hend g.get?_buildTable_nil_ne (fun _ hn _ => absurd hn hm)
          fun _ => hlater _
  by_cases hε : p.isEpsilon = true
  · rw [Production.yield, if_pos hε]
    obtain ⟨hf, hr⟩ := Production.isEpsilon_iff.1 hε
    refine hbelow (generates_nil_of_names hq fun b hb hne => absurd ?_ hne)
    rw [Production.names, Production.consequent, hf, hr] at hb
    exact List.mem_singleton.1 hb
  · rw [Production.yield, if_neg hε]
    exact hrest p.names [] rfl (by simp)

include hg

/-- The machine stops with a non-terminal on top, if it stops once the
lookahead is consumed, and below the non-terminal in case that can vanish. -/
theorem stops_nonTerminal (hh : ¬ g.HidesLeftRecursion) (ha : a ∉ g.nonTerminals)
    (hne : a ≠ epsilonName) {later : List String}
    (hlater : ∀ stack, Stops g (g.buildTable [] []).1 stack later)
    (n : {n // n ∈ g.nonTerminals}) :
    ∀ below, (g.Generates n [] → Stops g (g.buildTable [] []).1 below (a :: later)) →
      Stops g (g.buildTable [] []).1 (n :: below) (a :: later) := by
  have hend := hg.named.nonTerminals.endName_notMem
  -- The induction is on what the cells bring to the top, in front of this lookahead.
  induction n using (wellFounded_brings hg.named hg.recalls hc hh ha hne).induction with
  | _ n ih =>
    intro below hbelow
    refine stops_cons hend g.get?_buildTable_nil_ne (fun p _ hp => ?_) fun _ => hlater _
    refine stops_yield hc hend hp hlater (fun before m below hm => ?_) hbelow
    obtain ⟨_, -, -, hmem, -⟩ := id hm
    exact ih ⟨m, hmem⟩ ⟨before, hm⟩ below

/-- **From every stack, and every input without non-terminals, the machine
stops**, unless left recursion is hidden. -/
theorem stops_of_not_hidesLeftRecursion (hh : ¬ g.HidesLeftRecursion) {input : List String}
    (hinput : ∀ a ∈ input, a ∉ g.nonTerminals ∧ a ≠ epsilonName) (stack : List String) :
    Stops g (g.buildTable [] []).1 stack input := by
  have hend := hg.named.nonTerminals.endName_notMem
  induction input generalizing stack with
  | nil => exact stops_nil_input stack
  | cons a later ihInput =>
    obtain ⟨ha, hne⟩ := hinput a (by simp)
    have hlater : ∀ stack, Stops g (g.buildTable [] []).1 stack later :=
      fun stack => ihInput (fun b hb => hinput b (by simp [hb])) stack
    induction stack with
    | nil => exact stops_nil _
    | cons top below ihStack =>
      by_cases hn : top ∈ g.nonTerminals
      · exact stops_nonTerminal hg hc hh ha hne hlater ⟨top, hn⟩ below fun _ => ihStack
      · exact stops_cons hend g.get?_buildTable_nil_ne (fun _ hm _ => absurd hm hn)
          fun _ => hlater below

end

end Grammar

namespace Simulation

theorem isFinished_iff {s : Simulation} :
    s.isFinished = true ↔ s.status = .accepted ∨ s.status = .rejected := by
  rw [isFinished]
  cases s.status <;> simp [Status.isFinal]

/-- **Without conflicts and hidden left recursion every run ends**: on any
admitted input, the machine accepts or rejects. -/
theorem run_ends_of_not_hidesLeftRecursion {g : Grammar} (hg : g.Reachable)
    (hh : ¬ g.HidesLeftRecursion) (hc : (g.buildTable [] []).1.isConflictFree = true)
    {tokens : List String} {s₀ : Simulation}
    (hstart : Simulation.start (g.buildTable [] []).2 (g.buildTable [] []).1 tokens = .ok s₀) :
    ∃ records s, s₀.run none = some (records, s) ∧
      (s.status = .accepted ∨ ∃ message, s.status = .rejected ∧ s.message = some message) := by
  obtain ⟨hnts, -, -⟩ := Grammar.buildTable_frame g [] []
  obtain ⟨start, -, hadmitted, hs₀⟩ := start_eq_ok hstart
  have hinput : ∀ a ∈ tokens.filter (· ≠ "") ++ [endName],
      a ∉ g.nonTerminals ∧ a ≠ epsilonName := by
    intro a ha
    rcases List.mem_append.1 ha with ha | ha
    · obtain ⟨hr, hn⟩ := hadmitted a ha
      exact ⟨hnts ▸ hn, fun he => hr (by simp [he, reserved])⟩
    · obtain rfl := List.mem_singleton.1 ha
      exact ⟨fun h => hg.named.nonTerminals.ne_endName h rfl, by decide⟩
  have hstops := Grammar.stops_of_not_hidesLeftRecursion hg hc hh hinput [start, endName]
  obtain ⟨r, hr, -⟩ : ∃ r, s₀.runToEnd = some r ∧ True := by
    refine (hstops.of_nonTerminals hnts).runToEnd ?_ ?_ ?_ ?_ ?_ <;> rw [hs₀]
    rfl
  obtain ⟨hfinal, n, hstepped⟩ := runToEnd_eq_some_iff.1 hr
  have hexplained : r.IsExplained := hstepped ▸ (isFresh_of_start hstart).isExplained.stepped n
  have hrun : s₀.run none = some (r.history.drop s₀.records.length, r) := by
    rw [run, hr]
    rfl
  refine ⟨_, r, hrun, ?_⟩
  rw [← hexplained.status_eq_rejected_iff]
  exact isFinished_iff.1 hfinal

/-- A name that can vanish in front: the machine stops on every input. -/
theorem run_ends_of_not_hidesLeftRecursion_optional :
    let items : List ProductionItem := [.sides ⟨"S", ["N", "M"]⟩, .sides ⟨"N", ["n"]⟩,
      .sides ⟨"N", []⟩, .sides ⟨"M", ["m"]⟩]
    let g : Grammar :=
      { nonTerminals := ["S", "N", "M"], terminals := ["n", "m"], start := some "S"
        productions := [⟨"S", .nonTerminal "N", [.nonTerminal "M"]⟩, ⟨"N", .terminal "n", []⟩,
          ⟨"N", .epsilon, []⟩, ⟨"M", .terminal "m", []⟩] }
    Grammar.build "" "" ["S", "N", "M"] ["n", "m"] items (some "S") = .ok g ∧
    ¬ g.HidesLeftRecursion ∧ (g.buildTable [] []).1.isConflictFree = true ∧
    ∃ s₀, Simulation.start (g.buildTable [] []).2 (g.buildTable [] []).1 ["n", "m"] = .ok s₀ ∧
      ∃ records s, s₀.run none = some (records, s) ∧
        (s.status = .accepted ∨ ∃ message, s.status = .rejected ∧ s.message = some message) := by
  intro items g
  have hbuild : Grammar.build "" "" ["S", "N", "M"] ["n", "m"] items (some "S") = .ok g := rfl
  have hh : ¬ g.HidesLeftRecursion :=
    Grammar.not_hidesLeftRecursion_of_rank ["N"] (fun n => if n = "S" then 1 else 0)
      (by decide +kernel) (by decide +kernel)
  have hc : (g.buildTable [] []).1.isConflictFree = true := by decide +kernel
  refine ⟨hbuild, hh, hc, _, rfl, ?_⟩
  exact @run_ends_of_not_hidesLeftRecursion g (.build hbuild) hh hc ["n", "m"] _ rfl

/-! ### Hidden left recursion -/

/-- A run without a ceiling has no result where some states lead to one another
for ever. -/
theorem runToEnd_eq_none {P : Simulation → Prop} (hstep : ∀ s, P s → P s.step.2)
    (hgoing : ∀ s, P s → s.isFinished = false) {s : Simulation} (hs : P s) :
    s.runToEnd = none := by
  cases hr : s.runToEnd with
  | none => rfl
  | some r =>
    obtain ⟨hfinal, -⟩ := runToEnd_eq_some_iff.1 hr
    have hr := hgoing r (runToEnd_induction hstep hr hs)
    simp [hr] at hfinal

/-- A step that applies the production of a cell. -/
theorem step_of_get?_eq_production {s : Simulation} (hf : s.isFinished = false)
    {top ahead : String} {below later : List String} {p : Production}
    (hstack : s.current.stack = top :: below) (hinput : s.current.input = ahead :: later)
    (hn : top ∈ s.grammar.nonTerminals) (hne : top ≠ endName)
    (he : s.table.get? top ahead = some (.production p)) :
    s.step.2.status = .running ∧
      s.step.2.current.stack = p.yield.map Symbol.name ++ below ∧
      s.step.2.current.input = ahead :: later := by
  rw [step_of_not_isFinished hf, Move.next_of_production hstack hinput hn hne he]
  exact ⟨rfl, rfl, rfl⟩

/-- `A` is on top, alone or behind a `B`, in front of an `x`. -/
def IsCircling (s : Simulation) : Prop :=
  s.isFinished = false ∧ s.current.input = ["x", endName] ∧
    ∃ below, s.current.stack = "A" :: below ∨ s.current.stack = "B" :: "A" :: below

/-- If the cell of `A` puts `B A x` in its place and the cell of `B` nothing,
the `A` comes back. -/
theorem IsCircling.step {s : Simulation} (h : IsCircling s)
    (hn : s.grammar.nonTerminals = ["A", "B"])
    (hA : s.table.get? "A" "x" =
      some (.production ⟨"A", .nonTerminal "B", [.nonTerminal "A", .terminal "x"]⟩))
    (hB : s.table.get? "B" "x" = some (.production ⟨"B", .epsilon, []⟩)) : IsCircling s.step.2 := by
  obtain ⟨hf, hinput, below, hstack | hstack⟩ := h
  · obtain ⟨hst, hs, hi⟩ := step_of_get?_eq_production hf hstack hinput (by simp [hn]) (by decide) hA
    exact ⟨by rw [isFinished, hst]; rfl, hi, "x" :: below, .inr hs⟩
  · obtain ⟨hst, hs, hi⟩ := step_of_get?_eq_production hf hstack hinput (by simp [hn]) (by decide) hB
    exact ⟨by rw [isFinished, hst]; rfl, hi, below, .inl hs⟩

/-- **Where left recursion is hidden a run may be endless**, though the grammar
is valid and normalized and its table has no conflict. -/
theorem exists_endless_run :
    let items : List ProductionItem := [.sides ⟨"A", ["B", "A", "x"]⟩, .sides ⟨"A", ["y", "B", "x"]⟩,
      .sides ⟨"B", []⟩]
    let g : Grammar :=
      { nonTerminals := ["A", "B"], terminals := ["x", "y"], start := some "A"
        productions := [⟨"A", .nonTerminal "B", [.nonTerminal "A", .terminal "x"]⟩,
          ⟨"A", .terminal "y", [.nonTerminal "B", .terminal "x"]⟩, ⟨"B", .epsilon, []⟩] }
    Grammar.build "" "" ["A", "B"] ["x", "y"] items (some "A") = .ok g ∧
    Diagnostic.hasErrors g.problems = false ∧
    (∀ policy, g.normalize policy = .ok ⟨g, false, false⟩) ∧
    (g.buildTable [] []).1.isConflictFree = true ∧
    ∃ s₀, Simulation.start (g.buildTable [] []).2 (g.buildTable [] []).1 ["x"] = .ok s₀ ∧
      s₀.run none = none := by
  intro items g
  obtain ⟨s₀, hstart⟩ : ∃ s₀, Simulation.start (g.buildTable [] []).2 (g.buildTable [] []).1 ["x"] =
      .ok s₀ := ⟨_, rfl⟩
  refine ⟨rfl, by decide +kernel, fun policy => rfl, by decide +kernel, s₀, hstart, ?_⟩
  obtain ⟨start, hs, -, hs₀⟩ := start_eq_ok hstart
  obtain ⟨hnts, -, hstart_eq⟩ := Grammar.buildTable_frame g [] []
  obtain rfl : "A" = start := Option.some.inj (hstart_eq.symm.trans hs)
  have hA : (g.buildTable [] []).1.get? "A" "x" =
      some (.production ⟨"A", .nonTerminal "B", [.nonTerminal "A", .terminal "x"]⟩) := by
    decide +kernel
  have hB : (g.buildTable [] []).1.get? "B" "x" = some (.production ⟨"B", .epsilon, []⟩) := by
    decide +kernel
  -- Every two steps put an `x` below the `A`.
  have hnone : s₀.runToEnd = none := by
    refine runToEnd_eq_none (P := fun s => s.grammar = (g.buildTable [] []).2 ∧
      s.table = (g.buildTable [] []).1 ∧ IsCircling s) ?_ (fun s hs => hs.2.2.1) ?_
    · rintro s ⟨hg, ht, hcircling⟩
      obtain ⟨hg', ht', -⟩ := step_frame s
      exact ⟨hg'.trans hg, ht'.trans ht,
        hcircling.step (by rw [hg, hnts]) (by rw [ht, hA]) (by rw [ht, hB])⟩
    · refine ⟨by rw [hs₀], by rw [hs₀], ?_⟩
      rw [hs₀]
      exact ⟨rfl, rfl, [endName], .inl rfl⟩
  rw [run, hnone]
  rfl

end Simulation

end PredictiveParsing
