import PredictiveParsing.Proofs.Sets.Solutions

/-
The log of the passes replays to the sets.

* `solutionUnlogged`, `solve_fst_eq` — solving without a log, and that the log
  makes no difference to the sets;
* `Gains` — what a family has that an earlier one did not, each name once;
* `gains_pass`, `Settles.gains` — the log of a pass is what the pass gained,
  and the logs together are what all passes gained;
* `Settles.isTelling` — every log lists a name once and holds a symbol;
* `Recounts` — logs that tell how the sets came about;
* `recounts_solveFirst`, `recounts_solveFollow` — those of FIRST and FOLLOW do;
* `Reachable.isCanonical_first` — FIRST sets that are remembered are sets;
* `logged_sets_replay` — sets with a log are those without, and the log
  replays to them.

Design notes:

* An inclusion adds what is missing when it is met, so nothing that it adds was
  there before.  That is all that keeps a log free of repetitions, over the
  inclusions of a pass and over the passes alike: gains compose.
-/
namespace PredictiveParsing

variable {cs : List Inclusion}

/-! ### Solving without a log -/

/-- Adds what the target misses and notes only that there was something. -/
def Inclusion.enforceUnlogged (state : Family × Bool) (c : Inclusion) : Family × Bool :=
  match c.missing state.1 with
  | [] => state
  | added => (state.1.add c.target added, true)

/-- One pass over the inclusions, and whether it added anything. -/
def passUnlogged (cs : List Inclusion) (f : Family) : Family × Bool :=
  cs.foldl Inclusion.enforceUnlogged (f, false)

/-- At most so many passes, up to the first that adds nothing. -/
def solveUnlogged (cs : List Inclusion) : Nat → Family → Family
  | 0, f => f
  | n + 1, f =>
    let passed := passUnlogged cs f
    if passed.2 then solveUnlogged cs n passed.1 else passed.1

/-- The family after the last pass. -/
def solutionUnlogged (cs : List Inclusion) (f : Family) : Family :=
  solveUnlogged cs (room cs f + 1) f

/-- The family, and whether the log holds anything. -/
def unlog (state : Family × PassLog) : Family × Bool :=
  (state.1, !state.2.isBlank)

theorem Inclusion.enforceUnlogged_unlog (state : Family × PassLog) (c : Inclusion) :
    c.enforceUnlogged (unlog state) = unlog (c.enforce state) := by
  cases hm : c.missing state.1 with
  | nil => simp only [enforceUnlogged, enforce, unlog, hm]
  | cons x xs =>
    have hne : (c.enforce state).2.isBlank = false := by
      -- A log that stays blank would mean that nothing is missing.
      rw [← Bool.not_eq_true]
      intro hb
      have hnone := holds_iff_missing_eq_nil.1 (enforce_of_isBlank hb).2
      rw [hm] at hnone
      cases hnone
    have hfamily : (c.enforce state).1 = state.1.add c.target (x :: xs) := by rw [enforce, hm]
    rw [enforceUnlogged, unlog, hm, unlog, hne, hfamily]
    rfl

theorem passUnlogged_eq (cs : List Inclusion) (f : Family) :
    passUnlogged cs f = unlog (pass cs f) := by
  have hblank : (f, false) = unlog (f, PassLog.blank f) := by
    rw [unlog, PassLog.isBlank_blank]
    rfl
  rw [passUnlogged, hblank]
  exact List.foldl_hom unlog fun state c => c.enforceUnlogged_unlog state

/-- **The log makes no difference to the sets.** -/
theorem solve_fst_eq (cs : List Inclusion) (k : Nat) (f : Family) :
    (solve cs k f).1 = solveUnlogged cs k f := by
  induction k generalizing f with
  | zero => rfl
  | succ k ih =>
    -- Both stop after the same pass.
    rw [solve, solveUnlogged, passUnlogged_eq]
    cases hb : (pass cs f).2.isBlank with
    | true => simp [unlog, hb]
    | false => simp [unlog, hb, ih]

/-! ### Gains -/

/-- From one family to a later one, exactly the listed symbols are new, each of
them listed once. -/
structure Gains (f f' : Family) (gained : String → List String) : Prop where
  le : ∀ n, ∀ x ∈ f.of n, x ∈ f'.of n
  nodup : ∀ n, (gained n).Nodup
  mem_iff : ∀ n x, x ∈ gained n ↔ x ∈ f'.of n ∧ x ∉ f.of n

theorem Gains.refl (f : Family) : Gains f f fun _ => [] :=
  ⟨fun _ _ hx => hx, fun _ => List.nodup_nil, fun _ _ => by simp⟩

/-- What was gained before is there, so it is not gained again. -/
theorem Gains.trans {f f' f'' : Family} {gained gained' : String → List String}
    (h : Gains f f' gained) (h' : Gains f' f'' gained') :
    Gains f f'' fun n => gained n ++ gained' n := by
  refine ⟨fun n x hx => h'.le n x (h.le n x hx), ?_, ?_⟩
  · intro n
    refine List.nodup_append.2 ⟨h.nodup n, h'.nodup n, ?_⟩
    rintro x hx _ hx' rfl
    exact ((h'.mem_iff n x).1 hx').2 ((h.mem_iff n x).1 hx).1
  · intro n x
    rw [List.mem_append, h.mem_iff, h'.mem_iff]
    constructor
    · rintro (⟨hx, hnot⟩ | ⟨hx, hnot⟩)
      · exact ⟨h'.le n x hx, hnot⟩
      · exact ⟨hx, fun hold => hnot (h.le n x hold)⟩
    · rintro ⟨hx, hnot⟩
      -- Whether it was there in between says which part gained it.
      by_cases hmid : x ∈ f'.of n
      · exact .inl ⟨hmid, hnot⟩
      · exact .inr ⟨hx, hmid⟩

/-- Symbols for one name and none for the others. -/
def only (target : String) (added : List String) (n : String) : List String :=
  if n = target then added else []

theorem gains_add (f : Family) {target : String} {added : SymbolSet} (hadded : added.Nodup)
    (hnew : ∀ x ∈ added, x ∉ f.of target) :
    Gains f (f.add target added) (only target added) := by
  constructor
  · intro n x hx
    by_cases hn : n = target
    · subst hn
      simp [hx]
    · rwa [Family.of_add_of_ne hn]
  · intro n
    rw [only]
    split
    · exact hadded
    · exact List.nodup_nil
  · intro n x
    by_cases hn : n = target
    · subst hn
      rw [only, if_pos rfl, Family.of_add_self, SymbolSet.mem_union]
      exact ⟨fun hx => ⟨.inr hx, hnew x hx⟩, fun hx => hx.1.resolve_left hx.2⟩
    · rw [only, if_neg hn, Family.of_add_of_ne hn]
      simp

/-! ### The log of a pass -/

/-- What a log holds for a name. -/
def PassLog.entry (log : PassLog) (n : String) : List String :=
  (OrderedMap.get? n log).getD []

/-- What logs hold for a name, one after the other. -/
def logged (logs : List PassLog) (n : String) : List String :=
  logs.flatMap fun log => log.entry n

theorem PassLog.entry_blank (f : Family) : (PassLog.blank f).entry = fun _ => [] := by
  funext n
  rw [entry, blank]
  induction f with
  | nil => rfl
  | cons e f ih =>
    rw [List.map_cons, OrderedMap.get?]
    split
    · rfl
    · exact ih

theorem PassLog.entry_put_append (log : PassLog) (target : String) (added : List String) :
    PassLog.entry (OrderedMap.put target (log.entry target ++ added) log) =
      fun n => log.entry n ++ only target added n := by
  funext n
  by_cases hn : n = target
  · subst hn
    rw [entry, OrderedMap.get?_put_self, only, if_pos rfl, Option.getD_some]
  · rw [entry, OrderedMap.get?_put_of_ne hn, only, if_neg hn, List.append_nil, entry]

theorem SymbolSet.IsAscending.nodup {s : SymbolSet} (h : s.IsAscending) : s.Nodup :=
  h.imp ne_of_lt

theorem Inclusion.isAscending_missing {f : Family} {c : Inclusion}
    (hc : c.constants.IsAscending) : (c.missing f).IsAscending := by
  have hvalue : (c.value f).IsAscending :=
    List.foldlRecOn (motive := SymbolSet.IsAscending) c.sources _ hc fun _ hs _ _ => hs.union _
  exact hvalue.filter _

/-- An inclusion logs what it gains behind what was gained before it. -/
theorem Inclusion.gains_enforce {f : Family} {state : Family × PassLog} {c : Inclusion}
    (hc : c.constants.IsAscending) (h : Gains f state.1 state.2.entry) :
    Gains f (c.enforce state).1 (c.enforce state).2.entry := by
  rcases c.enforce_cases state with ⟨-, he⟩ | ⟨-, he⟩
  · rwa [he]
  · have hlog := h.trans (gains_add state.1 (isAscending_missing hc).nodup
      fun x hx => (SymbolSet.mem_difference.1 hx).2)
    rw [← PassLog.entry_put_append] at hlog
    rw [he]
    exact hlog

section

variable (hcs : ∀ c ∈ cs, c.constants.IsAscending)

include hcs

theorem gains_foldl_enforce {f : Family} {state : Family × PassLog}
    (h : Gains f state.1 state.2.entry) :
    Gains f (cs.foldl Inclusion.enforce state).1 (cs.foldl Inclusion.enforce state).2.entry :=
  List.foldlRecOn (motive := fun s : Family × PassLog => Gains f s.1 s.2.entry) cs _ h
    fun _ hs c hc => Inclusion.gains_enforce (hcs c hc) hs

/-- **The log of a pass is what the pass gained.** -/
theorem gains_pass (f : Family) : Gains f (pass cs f).1 (pass cs f).2.entry := by
  refine gains_foldl_enforce hcs ?_
  rw [PassLog.entry_blank]
  exact Gains.refl f

/-- **The logs together are what all passes gained.** -/
theorem Settles.gains {f last : Family} {logs : List PassLog} (h : Settles cs f last logs) :
    Gains f last (logged logs) := by
  induction h with
  | @done f hb =>
    have hsame : (pass cs f).1 = f := by rw [pass, (foldl_enforce_of_isBlank hb).1]
    rw [hsame]
    exact Gains.refl f
  | @next f last logs _ _ ih => exact (gains_pass hcs f).trans ih

end

/-! ### Every log holds something -/

theorem PassLog.keys_blank (f : Family) : OrderedMap.keys (PassLog.blank f) = OrderedMap.keys f := by
  rw [OrderedMap.keys, blank, List.map_map]
  rfl

theorem Inclusion.nodup_keys_enforce {state : Family × PassLog} (c : Inclusion)
    (h : (OrderedMap.keys state.1).Nodup ∧ (OrderedMap.keys state.2).Nodup) :
    (OrderedMap.keys (c.enforce state).1).Nodup ∧ (OrderedMap.keys (c.enforce state).2).Nodup := by
  rcases c.enforce_cases state with ⟨-, he⟩ | ⟨-, he⟩
  · rwa [he]
  · rw [he]
    exact ⟨OrderedMap.nodup_keys_put h.1 _ _, OrderedMap.nodup_keys_put h.2 _ _⟩

theorem nodup_keys_pass {f : Family} (hf : (OrderedMap.keys f).Nodup) :
    (OrderedMap.keys (pass cs f).1).Nodup ∧ (OrderedMap.keys (pass cs f).2).Nodup :=
  List.foldlRecOn (motive := fun s : Family × PassLog =>
      (OrderedMap.keys s.1).Nodup ∧ (OrderedMap.keys s.2).Nodup) cs _
    ⟨hf, by rwa [PassLog.keys_blank]⟩ fun _ hs c _ => c.nodup_keys_enforce hs

/-- A log that is not blank holds a symbol for some name. -/
theorem PassLog.exists_entry_ne_nil {log : PassLog} (hkeys : (OrderedMap.keys log).Nodup)
    (hb : log.isBlank = false) : ∃ n, log.entry n ≠ [] := by
  rw [isBlank, List.all_eq_false] at hb
  obtain ⟨e, he, hne⟩ := hb
  refine ⟨e.1, ?_⟩
  rw [entry, OrderedMap.get?_of_mem hkeys he, Option.getD_some]
  simpa using hne

theorem PassLog.entry_of_isBlank {log : PassLog} (hb : log.isBlank = true) (n : String) :
    log.entry n = [] := by
  rw [entry]
  cases hn : OrderedMap.get? n log with
  | none => rfl
  | some added =>
    have := List.all_eq_true.1 hb _ (OrderedMap.mem_of_get? hn)
    simpa using this

/-- A log lists no name twice and holds a symbol. -/
structure PassLog.IsTelling (log : PassLog) : Prop where
  nodup_keys : (OrderedMap.keys log).Nodup
  exists_entry : ∃ n, log.entry n ≠ []

/-- **Every log of a pass holds a symbol.** -/
theorem Settles.isTelling {f last : Family} {logs : List PassLog} (h : Settles cs f last logs)
    (hf : (OrderedMap.keys f).Nodup) : ∀ log ∈ logs, log.IsTelling := by
  induction h with
  | done _ => simp
  | next hb _ ih =>
    obtain ⟨hfamily, hlog⟩ := nodup_keys_pass hf
    exact List.forall_mem_cons.2 ⟨⟨hlog, PassLog.exists_entry_ne_nil hlog hb⟩, ih hfamily⟩

/-! ### The logs of FIRST and FOLLOW -/

/-- Logs that tell how sets came about: every member that was not there
initially is logged once, nothing else is, and every log holds something. -/
structure Recounts (logs : List PassLog) (initial : String → String → Prop) (sets : Family) :
    Prop where
  nodup : ∀ n, (logged logs n).Nodup
  mem_iff : ∀ n x, x ∈ logged logs n ↔ x ∈ sets.of n ∧ ¬ initial n x
  isTelling : ∀ log ∈ logs, log.IsTelling

namespace Grammar

variable {g : Grammar} {first : Family}

/-- What is entered beforehand is logged as it is entered. -/
theorem gains_seedLog (g : Grammar) : Gains [] g.seededFirst g.seedLog.entry := by
  have hnone : ∀ n, Family.of [] n = [] := fun _ => rfl
  have hcanonical : Family.IsCanonical g.seedLog :=
    isCanonical_foldl_seeds _ (isCanonical_declareAll _ Family.isCanonical_nil)
  refine ⟨fun n x hx => ?_, fun n => (hcanonical n).nodup, fun n x => ?_⟩
  · cases hx
  · -- Sets and log begin with other names listed, but with the same empty sets.
    have hlisted : (Family.declareAll g.nonTerminals []).of n = [] := Family.of_declareAll _ _ _
    have hlogged : x ∈ g.seedLog.entry n ↔ ∃ p ∈ g.seeds, p.antecedent = n ∧ p.first.name = x := by
      refine (mem_foldl_seeds g.seeds _ n x).trans ?_
      simp [hlisted]
    rw [hlogged, mem_seededFirst_iff, hnone]
    simp [seeds, and_assoc]

theorem nodup_keys_seedLog : (OrderedMap.keys g.seedLog).Nodup :=
  nodup_keys_foldl_seeds _ (Family.nodup_keys_declareAll _ List.nodup_nil)

theorem logged_solveFirst (g : Grammar) : logged g.solveFirst.2 = fun n =>
    g.seedLog.entry n ++ logged (solution g.firstInclusions g.seededFirst).2 n := by
  funext n
  rw [solveFirst]
  dsimp only
  split
  · next hb => rw [PassLog.entry_of_isBlank hb, List.nil_append]
  · rfl

/-- **The log of FIRST replays to the FIRST sets.** -/
theorem recounts_solveFirst (g : Grammar) :
    Recounts g.solveFirst.2 (fun _ _ => False) g.solveFirst.1 := by
  have hs := settles_solution g.firstInclusions g.seededFirst
  have hgains : Gains [] g.solveFirst.1 (logged g.solveFirst.2) := by
    rw [logged_solveFirst]
    refine g.gains_seedLog.trans (hs.gains ?_)
    intro c hc
    obtain ⟨p, -, n, -, rfl⟩ := mem_firstInclusions_iff.1 hc
    exact .nil
  refine ⟨hgains.nodup, fun n x => by simp [hgains.mem_iff, Family.of, OrderedMap.get?], ?_⟩
  have htelling := hs.isTelling nodup_keys_seededFirst
  rw [solveFirst]
  dsimp only
  split
  · exact htelling
  · next hb =>
    have hseed := PassLog.exists_entry_ne_nil nodup_keys_seedLog (by simpa using hb)
    exact List.forall_mem_cons.2 ⟨⟨nodup_keys_seedLog, hseed⟩, htelling⟩

theorem isAscending_constants_occurrenceInclusion (hfirst : first.IsCanonical)
    (antecedent : String) (occurrence : String × Option Symbol) :
    (g.occurrenceInclusion first antecedent occurrence).constants.IsAscending := by
  obtain ⟨n, o⟩ := occurrence
  cases o with
  | none => exact .nil
  | some s =>
    cases s with
    | nonTerminal m => exact (hfirst m).filter _
    | terminal t => exact List.pairwise_singleton _ _
    | epsilon => exact .nil
    | endMarker => exact .nil

/-- **The log of FOLLOW replays to the FOLLOW sets** without the end marker of
the start symbol, whatever the FIRST sets. -/
theorem recounts_solveFollow (g : Grammar) (hfirst : first.IsCanonical) :
    Recounts (g.solveFollow first).2 (fun n x => g.start = some n ∧ x = endName)
      (g.solveFollow first).1 := by
  have hs := settles_solution (g.followInclusions first) (g.seededFollow first)
  have hgains : Gains (g.seededFollow first) (g.solveFollow first).1
      (logged (g.solveFollow first).2) := by
    refine hs.gains ?_
    intro c hc
    obtain ⟨p, -, before, n, behind, -, rfl⟩ := exists_of_mem_followInclusions hc
    exact isAscending_constants_occurrenceInclusion hfirst _ _
  refine ⟨hgains.nodup, fun n x => ?_, hs.isTelling nodup_keys_seededFollow⟩
  rw [hgains.mem_iff, mem_seededFollow_iff]

/-! ### FIRST sets that are remembered -/

/-- **FIRST sets that a reachable grammar remembers are sets.** -/
theorem Reachable.isCanonical_first (hg : g.Reachable) :
    ∀ f, g.first = some f → f.IsCanonical := by
  induction hg with
  | @build name description nonTerminals terminals items start _ h =>
    obtain ⟨g₁, g₂, -, -, rfl⟩ := build_cases h
    intro f hf
    cases hf
  | @apply g o _ hg ih =>
    intro f hf
    have hs := setsAfter_apply (Reachable.named hg) o
    generalize o.apply g = h at hs hf
    cases hs with
    | forgotten h₁ _ =>
      rw [h₁] at hf
      cases hf
    | kept _ _ h₁ _ => exact ih f (h₁.symm.trans hf)
    | noted h₁ _ =>
      rcases h₁ with h₁ | h₁
      · exact ih f (h₁.symm.trans hf)
      · obtain rfl := Option.some.inj (h₁.symm.trans hf)
        exact g.isCanonical_solveFirst

/-- The FIRST sets that FOLLOW sets rest on are sets if those given are. -/
theorem Reachable.isCanonical_givenFirst (hg : g.Reachable) {given : Option Family}
    (hgiven : ∀ f, given = some f → f.IsCanonical) : (g.givenFirst given).1.IsCanonical := by
  cases given with
  | some f => exact hgiven f rfl
  | none =>
    rw [givenFirst]
    rcases g.some_knownFirst_cases with h | h
    · exact hg.isCanonical_first _ h.symm
    · rw [Option.some.inj h]
      exact g.isCanonical_solveFirst

/-- Finding the FIRST sets only notes them. -/
theorem givenFirst_eq (given : Option Family) (g : Grammar) :
    (g.givenFirst given).2 = { g with first := (g.givenFirst given).2.first } := by
  cases given with
  | some f => rfl
  | none =>
    rw [givenFirst, knownFirst_eq]

/-! ### Replaying -/

/-- **The log replays to the sets.**  The sets that come with a log are those
that are computed without one, by passes that write none, and leave the same
grammar behind.  For each name the passes log the FIRST set, and the FOLLOW set
without the end marker of the start symbol, each symbol once and whatever FIRST
sets FOLLOW rests on; and every log holds a symbol. -/
theorem logged_sets_replay (hg : g.Reachable) {given : Option Family}
    (hgiven : ∀ f, given = some f → f.IsCanonical) :
    (g.logFirst.1.1 = g.computeFirst.1 ∧ g.logFirst.2 = g.computeFirst.2 ∧
      g.computeFirst.1 = solutionUnlogged g.firstInclusions g.seededFirst ∧
      Recounts g.logFirst.1.2 (fun _ _ => False) g.logFirst.1.1) ∧
    ∀ first h, g.givenFirst given = (first, h) →
      (g.logFollow given).1.1 = (h.computeFollow first).1 ∧
      (g.logFollow given).2 = (h.computeFollow first).2 ∧
      (h.computeFollow first).1 =
        solutionUnlogged (g.followInclusions first) (g.seededFollow first) ∧
      Recounts (g.logFollow given).1.2 (fun n x => g.start = some n ∧ x = endName)
        (g.logFollow given).1.1 := by
  refine ⟨⟨rfl, rfl, solve_fst_eq _ _ _, g.recounts_solveFirst⟩, ?_⟩
  intro first h hfirst
  have hset : first.IsCanonical := by
    have := hg.isCanonical_givenFirst hgiven
    rwa [hfirst] at this
  -- Finding the FIRST sets changes nothing that the FOLLOW sets are computed from.
  have hnoted : h = { g with first := h.first } := by
    have := givenFirst_eq given g
    rwa [hfirst] at this
  have hsame : h.solveFollow first = g.solveFollow first := by
    rw [hnoted]
    rfl
  have hlog : g.logFollow given = (g.solveFollow first, (h.computeFollow first).2) := by
    rw [logFollow, hfirst, ← hsame]
    rfl
  rw [hlog, computeFollow, hsame]
  exact ⟨rfl, rfl, solve_fst_eq _ _ _, g.recounts_solveFollow hset⟩

/-- A list with an optional end, and given FIRST sets.  What follows `A` is added
at two occurrences; `B` comes before it and gets all of that in the next pass. -/
theorem logged_sets_replay_list :
    let items : List ProductionItem := [.sides ⟨"A", ["B"]⟩, .sides ⟨"B", ["a"]⟩,
      .sides ⟨"S", ["A", "c"]⟩, .sides ⟨"S", ["A", "X"]⟩, .sides ⟨"X", []⟩]
    let g : Grammar :=
      { nonTerminals := ["S", "A", "B", "X"], terminals := ["a", "b", "c"], start := some "S"
        productions := [⟨"A", .nonTerminal "B", []⟩, ⟨"B", .terminal "a", []⟩,
          ⟨"S", .nonTerminal "A", [.terminal "c"]⟩, ⟨"S", .nonTerminal "A", [.nonTerminal "X"]⟩,
          ⟨"X", .epsilon, []⟩] }
    let first : Family := Family.add "X" [epsilonName, "b"] []
    build "" "" ["S", "A", "B", "X"] ["a", "b", "c"] items (some "S") = .ok g ∧
    first.IsCanonical ∧
    g.logFirst.1.2 = [[("S", []), ("A", []), ("B", ["a"]), ("X", [epsilonName])],
      [("S", ["a"]), ("A", ["a"]), ("B", []), ("X", [])]] ∧
    Recounts g.logFirst.1.2 (fun _ _ => False) g.logFirst.1.1 ∧
    (g.logFollow (some first)).1.2 =
      [[("S", []), ("A", ["c", endName, "b"]), ("B", []), ("X", [endName])],
        [("S", []), ("A", []), ("B", [endName, "b", "c"]), ("X", [])]] ∧
    Recounts (g.logFollow (some first)).1.2 (fun n x => g.start = some n ∧ x = endName)
      (g.logFollow (some first)).1.1 := by
  intro items g first
  have hbuild : build "" "" ["S", "A", "B", "X"] ["a", "b", "c"] items (some "S") = .ok g := rfl
  have hcanonical : first.IsCanonical := Family.isCanonical_nil.add _ _
  have hgiven : ∀ f, some first = some f → f.IsCanonical := by
    intro f hf
    obtain rfl := Option.some.inj hf
    exact hcanonical
  obtain ⟨⟨-, -, -, hfirst⟩, hfollow⟩ := logged_sets_replay (.build hbuild) hgiven
  obtain ⟨-, -, -, hfollow⟩ := hfollow first g rfl
  exact ⟨hbuild, hcanonical, by decide +kernel, hfirst, by decide +kernel, hfollow⟩

end Grammar

end PredictiveParsing
