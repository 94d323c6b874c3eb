import PredictiveParsing.Proofs.Sets.Remembered
import PredictiveParsing.Proofs.Table.Cells

/-
The table of a grammar is its predict relation.

A production is predicted in a row, the one of its antecedent, and in the
columns that FIRST and FOLLOW name.  Cells are overwritten in place while
conflicts are logged on the side; both are determined by the relation.

* `Overwrite` — a cell that goes from one production to another, with the
  diagnostic that tells of it;
* `overwrites` — all of them, from the relation alone;
* `conflicts_ofProductions` — the log of a table is the list of overwrites;
* `exists_mem_overwrites_iff` — a cell is overwritten exactly if two different
  productions select it;
* `Grammar.Predicts`, `buildTable_predicts` — what a table holds and logs.

Design notes:

* A production may select a column twice, once by FIRST and once by FOLLOW.
  The second time it meets itself, so only the first occurrence counts.
-/
namespace PredictiveParsing

/-- A cell that held one production until another was entered in it. -/
structure Overwrite where
  row : String
  column : String
  previous : Production
  next : Production
  deriving DecidableEq, Repr

namespace Overwrite

/-- The warning that tells of an overwrite. -/
def diagnostic (o : Overwrite) : Diagnostic :=
  { kind := .tableConflict
    message := "Conflict at M[" ++ o.row ++ ", " ++ o.column ++ "]: " ++ o.previous.text ++
      " replaced by " ++ o.next.text
    symbol := some o.row
    severity := .warning }

/-- What happens when a production is entered in a column that holds
`previous`. -/
def of? (p : Production) (column : String) (previous : Option Production) : Option Overwrite :=
  (previous.filter (· ≠ p)).map fun q => ⟨p.antecedent, column, q, p⟩

theorem of?_eq_some_iff {p : Production} {column : String} {previous : Option Production}
    {o : Overwrite} :
    of? p column previous = some o ↔
      ∃ q, previous = some q ∧ q ≠ p ∧ o = ⟨p.antecedent, column, q, p⟩ := by
  cases previous with
  | none => simp [of?]
  | some q =>
    by_cases hq : q = p
    · simp [of?, Option.filter, hq]
    · have hf : (some q).filter (· ≠ p) = some q := by simp [Option.filter, hq]
      rw [of?, hf]
      constructor
      · intro ho
        exact ⟨q, rfl, hq, (Option.some.inj ho).symm⟩
      · rintro ⟨r, hr, -, rfl⟩
        obtain rfl := Option.some.inj hr
        rfl

end Overwrite

variable {first follow : Family}

/-- The last of some productions that selects a cell. -/
def lastSelecting (first follow : Family) (ps : List Production) (row column : String) :
    Option Production :=
  (ps.filter fun p => p.Selects first follow row column).getLast?

/-- The overwrites when a production is entered behind others. -/
def overwritesBy (first follow : Family) (before : List Production) (p : Production) :
    List Overwrite :=
  (p.selected first follow).eraseDups.filterMap fun column =>
    Overwrite.of? p column (lastSelecting first follow before p.antecedent column)

/-- The overwrites when productions are entered one after the other. -/
def overwrites (first follow : Family) (before : List Production) :
    List Production → List Overwrite
  | [] => []
  | p :: ps => overwritesBy first follow before p ++ overwrites first follow (before ++ [p]) ps

/-! ### Productions that select a cell -/

section

variable {ps : List Production} {p : Production} {row column : String}

theorem lastSelecting_eq_some_iff :
    lastSelecting first follow ps row column = some p ↔
      ∃ front behind, ps = front ++ p :: behind ∧ p.Selects first follow row column ∧
        ∀ q ∈ behind, ¬ q.Selects first follow row column := by
  rw [lastSelecting, List.getLast?_eq_some_iff]
  constructor
  · rintro ⟨others, he⟩
    obtain ⟨front, rest, rfl, -, hrest⟩ := List.filter_eq_append_iff.1 he
    obtain ⟨skipped, behind, rfl, -, hp, hbehind⟩ := List.filter_eq_cons_iff.1 hrest
    refine ⟨front ++ skipped, behind, by simp, by simpa using hp, ?_⟩
    simpa using hbehind
  · rintro ⟨front, behind, rfl, hp, hbehind⟩
    have hnone : behind.filter (fun q => q.Selects first follow row column) = [] := by
      simpa using hbehind
    exact ⟨front.filter fun q => q.Selects first follow row column, by simp [hp, hnone]⟩

theorem lastSelecting_eq_none_iff :
    lastSelecting first follow ps row column = none ↔
      ∀ p ∈ ps, ¬ p.Selects first follow row column := by
  simp [lastSelecting]

theorem of_lastSelecting_eq_some (h : lastSelecting first follow ps row column = some p) :
    p ∈ ps ∧ p.Selects first follow row column := by
  obtain ⟨front, behind, rfl, hp, -⟩ := lastSelecting_eq_some_iff.1 h
  exact ⟨by simp, hp⟩

end

/-! ### The log of a table -/

theorem overwrites_append_singleton (before ps : List Production) (p : Production) :
    overwrites first follow before (ps ++ [p]) =
      overwrites first follow before ps ++ overwritesBy first follow (before ++ ps) p := by
  induction ps generalizing before with
  | nil => simp [overwrites]
  | cons q ps ih => simp [overwrites, ih]

namespace Table

theorem conflicts_enter {t : Table} {p : Production} {a : String} {previous : Option Production}
    (ht : t.get? p.antecedent a = previous.map .production) :
    (t.enter p a).conflicts =
      t.conflicts ++ (Overwrite.of? p a previous).toList.map Overwrite.diagnostic := by
  rw [enter]
  dsimp only [exchange_fst, exchange_snd]
  rw [ht]
  cases previous with
  | none =>
    show t.conflicts = t.conflicts ++ []
    rw [List.append_nil]
  | some q =>
    dsimp only [Option.map_some]
    by_cases hq : q = p
    · rw [if_pos (congrArg _ hq)]
      simp [Overwrite.of?, Option.filter, hq, put]
    · rw [if_neg fun he => hq (Entry.production.inj he)]
      simp [Overwrite.of?, Option.filter, hq, put, Overwrite.diagnostic, Entry.text]

/-- Entering a production in one cell after the other: a column that comes
again finds the production itself there. -/
theorem conflicts_foldl_enter {t : Table} {p : Production} {previous : String → Option Production}
    (ht : ∀ a, t.get? p.antecedent a = (previous a).map .production) (as : List String) :
    (as.foldl (fun t a => t.enter p a) t).conflicts =
      t.conflicts ++ (as.eraseDups.filterMap fun a =>
        Overwrite.of? p a (previous a)).map Overwrite.diagnostic := by
  induction as using List.reverseRecOn with
  | nil => simp
  | append_singleton as a ih =>
    rw [List.foldl_append, List.foldl_cons, List.foldl_nil, List.eraseDups_append,
      List.filterMap_append, List.map_append, ← List.append_assoc, ← ih]
    by_cases ha : a ∈ as
    · -- The cell already holds the production.
      have hcell : (as.foldl (fun t a => t.enter p a) t).get? p.antecedent a =
          (some p).map .production := by
        rw [get?_foldl_enter, if_pos ⟨rfl, ha⟩]
        rfl
      have hnew : ([a].removeAll as).eraseDups = [] := by simp [List.removeAll, ha]
      rw [conflicts_enter hcell, hnew]
      simp [Overwrite.of?, Option.filter]
    · have hcell : (as.foldl (fun t a => t.enter p a) t).get? p.antecedent a =
          (previous a).map .production := by
        rw [get?_foldl_enter, if_neg fun h => ha h.2]
        exact ht a
      have hnew : ([a].removeAll as).eraseDups = [a] := by
        simp [List.removeAll, ha, List.eraseDups_cons]
      rw [conflicts_enter hcell, hnew]
      rw [List.filterMap_cons]
      cases Overwrite.of? p a (previous a) <;> rfl

/-- **The log of a table is the list of the overwrites.** -/
theorem conflicts_ofProductions (g : Grammar) (first follow : Family) :
    (ofProductions g first follow).conflicts =
      (overwrites first follow [] g.productions).map Overwrite.diagnostic := by
  rw [ofProductions]
  induction g.productions using List.reverseRecOn with
  | nil => rfl
  | append_singleton ps p ih =>
    have hcells : ∀ a, (ps.foldl (enterAll first follow) (ofFrame g.nonTerminals g.terminals)).get?
        p.antecedent a = (lastSelecting first follow ps p.antecedent a).map .production :=
      fun a => get?_foldl_enterAll ps g.nonTerminals g.terminals p.antecedent a
    rw [List.foldl_append, List.foldl_cons, List.foldl_nil, enterAll, conflicts_foldl_enter hcells,
      ih, overwrites_append_singleton, List.map_append]
    rfl

end Table

/-! ### The cells that are overwritten -/

section

variable {before ps : List Production} {p : Production} {row column : String} {o : Overwrite}

theorem mem_overwritesBy_iff :
    o ∈ overwritesBy first follow before p ↔
      ∃ q, lastSelecting first follow before p.antecedent o.column = some q ∧ q ≠ p ∧
        o.column ∈ p.selected first follow ∧ o = ⟨p.antecedent, o.column, q, p⟩ := by
  rw [overwritesBy, List.mem_filterMap]
  constructor
  · rintro ⟨column, hc, ho⟩
    obtain ⟨q, hq, hne, rfl⟩ := Overwrite.of?_eq_some_iff.1 ho
    exact ⟨q, hq, hne, List.mem_eraseDups.1 hc, rfl⟩
  · rintro ⟨q, hq, hne, hc, ho⟩
    exact ⟨o.column, List.mem_eraseDups.2 hc, Overwrite.of?_eq_some_iff.2 ⟨q, hq, hne, ho⟩⟩

/-- A production overwrites a cell it selects if the cell holds another one. -/
theorem exists_mem_overwritesBy_iff :
    (∃ o ∈ overwritesBy first follow before p, o.row = row ∧ o.column = column) ↔
      p.Selects first follow row column ∧
        ∃ q, lastSelecting first follow before row column = some q ∧ q ≠ p := by
  constructor
  · rintro ⟨o, ho, hr, hc⟩
    obtain ⟨q, hq, hne, hsel, he⟩ := mem_overwritesBy_iff.1 ho
    have hrow : p.antecedent = row := by rw [← hr, he]
    rw [hrow, hc] at hq
    exact ⟨⟨hrow, hc ▸ hsel⟩, q, hq, hne⟩
  · rintro ⟨⟨rfl, hsel⟩, q, hq, hne⟩
    exact ⟨⟨p.antecedent, column, q, p⟩, mem_overwritesBy_iff.2 ⟨q, hq, hne, hsel, rfl⟩, rfl, rfl⟩

/-- **A cell is overwritten exactly if two different productions select it.** -/
theorem exists_mem_overwrites_iff :
    (∃ o ∈ overwrites first follow [] ps, o.row = row ∧ o.column = column) ↔
      ∃ p ∈ ps, ∃ q ∈ ps, p ≠ q ∧ p.Selects first follow row column ∧
        q.Selects first follow row column := by
  induction ps using List.reverseRecOn with
  | nil => simp [overwrites]
  | append_singleton ps p ih =>
    have hsplit : (∃ o ∈ overwrites first follow [] (ps ++ [p]), o.row = row ∧ o.column = column) ↔
        (∃ o ∈ overwrites first follow [] ps, o.row = row ∧ o.column = column) ∨
          ∃ o ∈ overwritesBy first follow ps p, o.row = row ∧ o.column = column := by
      rw [overwrites_append_singleton, List.nil_append]
      simp only [List.mem_append, or_and_right, exists_or]
    rw [hsplit, ih, exists_mem_overwritesBy_iff]
    constructor
    · rintro (⟨a, ha, b, hb, hne, hsa, hsb⟩ | ⟨hsp, q, hq, hne⟩)
      · exact ⟨a, by simp [ha], b, by simp [hb], hne, hsa, hsb⟩
      · obtain ⟨hmem, hsq⟩ := of_lastSelecting_eq_some hq
        exact ⟨q, by simp [hmem], p, by simp, hne, hsq, hsp⟩
    · -- What the cell held before the last production either differs from it, or is the same
      -- production, which then met the other one earlier.
      have hlast : ∀ a ∈ ps, a ≠ p → a.Selects first follow row column →
          p.Selects first follow row column →
          (∃ a ∈ ps, ∃ b ∈ ps, a ≠ b ∧ a.Selects first follow row column ∧
            b.Selects first follow row column) ∨
          p.Selects first follow row column ∧
            ∃ q, lastSelecting first follow ps row column = some q ∧ q ≠ p := by
        intro a ha hne hsa hsp
        cases hl : lastSelecting first follow ps row column with
        | none => exact absurd hsa (lastSelecting_eq_none_iff.1 hl a ha)
        | some q =>
          by_cases hq : q = p
          · subst hq
            exact .inl ⟨a, ha, q, (of_lastSelecting_eq_some hl).1, hne, hsa, hsp⟩
          · exact .inr ⟨hsp, q, rfl, hq⟩
      rintro ⟨a, ha, b, hb, hne, hsa, hsb⟩
      rw [List.mem_append, List.mem_singleton] at ha hb
      rcases ha with ha | rfl <;> rcases hb with hb | rfl
      · exact .inl ⟨a, ha, b, hb, hne, hsa, hsb⟩
      · exact hlast a ha hne hsa hsb
      · exact hlast b hb hne.symm hsb hsa
      · exact absurd rfl hne

/-- Productions that go back and forth are overwritten each time. -/
example :
    let a : Production := ⟨"S", .terminal "a", []⟩
    let ab : Production := ⟨"S", .terminal "a", [.terminal "b"]⟩
    overwrites [] [] [] [a, a, ab, a] = [⟨"S", "a", a, ab⟩, ⟨"S", "a", ab, a⟩] := by
  decide +kernel

end

/-! ### The table of a grammar -/

namespace Grammar

variable {g h : Grammar} {p : Production} {row column : String}

/-- **The predict relation** of a grammar: a production stands in the row of
its antecedent and in the columns its consequent can begin with, or, if that
is `ε`, in those that can follow the antecedent. -/
def Predicts (g : Grammar) (p : Production) (row column : String) : Prop :=
  p.antecedent = row ∧
    (column ∈ p.firstSet g.knownSets.1 ∧ column ≠ epsilonName ∨
      epsilonName ∈ p.firstSet g.knownSets.1 ∧ column ∈ g.knownSets.2.1.of row)

theorem predicts_iff_selects :
    g.Predicts p row column ↔ p.Selects g.knownSets.1 g.knownSets.2.1 row column := by
  rw [Production.selects_iff]
  refine and_congr_right fun hr => ?_
  rw [hr]

/-- Without error functions, the table is that of the productions. -/
theorem buildTable_nil (g : Grammar) :
    (g.buildTable [] []).1 = Table.ofProductions g g.knownSets.1 g.knownSets.2.1 := by
  rw [buildTable, knownSets_eq]
  rfl

theorem get?_buildTable_nil (g : Grammar) (row column : String) :
    (g.buildTable [] []).1.get? row column =
      (lastSelecting g.knownSets.1 g.knownSets.2.1 g.productions row column).map .production := by
  rw [buildTable_nil]
  exact Table.get?_ofProductions g row column

/-- Without error functions, a cell holds what is predicted there or nothing. -/
theorem mem_of_get?_buildTable_nil {e : Entry}
    (h : (g.buildTable [] []).1.get? row column = some e) :
    ∃ p ∈ g.productions, g.Predicts p row column ∧ e = .production p := by
  rw [get?_buildTable_nil, Option.map_eq_some_iff] at h
  obtain ⟨p, hp, rfl⟩ := h
  obtain ⟨hmem, hsel⟩ := of_lastSelecting_eq_some hp
  exact ⟨p, hmem, predicts_iff_selects.2 hsel, rfl⟩

theorem get?_buildTable_nil_ne (g : Grammar) (row column : String) (f : ErrorFunction) :
    (g.buildTable [] []).1.get? row column ≠ some (.errorFunction f) := by
  rw [buildTable_nil]
  exact Table.get?_ofProductions_ne g row column f

theorem isConflictFree_buildTable_iff :
    (g.buildTable [] []).1.isConflictFree = true ↔
      ∀ p ∈ g.productions, ∀ q ∈ g.productions, ∀ row column,
        g.Predicts p row column → g.Predicts q row column → p = q := by
  rw [buildTable_nil, Table.isConflictFree, List.isEmpty_iff,
    Table.ofProductions_conflicts_eq_nil_iff]
  simp only [predicts_iff_selects]

/-- If there is no conflict, a cell holds every production that is predicted
there, so it makes no difference which one comes last. -/
theorem get?_eq_some_iff_of_isConflictFree (hc : (g.buildTable [] []).1.isConflictFree = true)
    {e : Entry} :
    (g.buildTable [] []).1.get? row column = some e ↔
      ∃ p ∈ g.productions, g.Predicts p row column ∧ e = .production p := by
  constructor
  · exact mem_of_get?_buildTable_nil
  · rintro ⟨p, hp, hpre, rfl⟩
    rw [get?_buildTable_nil, Option.map_eq_some_iff]
    cases hl : lastSelecting g.knownSets.1 g.knownSets.2.1 g.productions row column with
    | none => exact absurd (predicts_iff_selects.1 hpre) (lastSelecting_eq_none_iff.1 hl p hp)
    | some q =>
      obtain ⟨hmem, hsel⟩ := of_lastSelecting_eq_some hl
      have hqp := isConflictFree_buildTable_iff.1 hc q hmem p hp row column
        (predicts_iff_selects.2 hsel) hpre
      exact ⟨q, rfl, congrArg _ hqp⟩

/-- The predict relation does not depend on the order of the productions. -/
theorem predicts_congr (hg : g.Reachable) (hh : h.Reachable)
    (hps : ∀ p, p ∈ g.productions ↔ p ∈ h.productions) (hs : g.start = h.start) :
    g.Predicts p row column ↔ h.Predicts p row column := by
  have hfirst : ∀ n x, x ∈ g.knownSets.1.of n ↔ x ∈ h.knownSets.1.of n := by
    intro n x
    rw [hg.recalls.mem_knownSets_fst_iff, hh.recalls.mem_knownSets_fst_iff]
    exact begins_congr hps
  have hfollow : ∀ n x, x ∈ g.knownSets.2.1.of n ↔ x ∈ h.knownSets.2.1.of n := by
    intro n x
    rw [hg.recalls.mem_knownSets_snd_iff, hh.recalls.mem_knownSets_snd_iff]
    exact follows_congr hps hs fun n x => mem_solveFirst_congr hps
  have hset : ∀ x, x ∈ p.firstSet g.knownSets.1 ↔ x ∈ p.firstSet h.knownSets.1 := by
    intro x
    unfold Production.firstSet
    cases p.first with
    | nonTerminal n => exact hfirst n x
    | epsilon => rfl
    | endMarker => rfl
    | terminal n => rfl
  rw [Predicts, Predicts, hset, hset, hfollow]

/-- **The table is exactly the predict relation.**  A cell holds the last
production, in list order, that is predicted there, and is empty if none is.
The conflicts are the overwrites, and a cell is overwritten exactly if two
different productions are predicted there; so there are no conflicts exactly if
that happens nowhere, and then the cells are the same for every order of the
productions. -/
theorem buildTable_predicts (g : Grammar) :
    (∀ row column e, (g.buildTable [] []).1.get? row column = some e ↔
      ∃ front p behind, g.productions = front ++ p :: behind ∧ g.Predicts p row column ∧
        (∀ q ∈ behind, ¬ g.Predicts q row column) ∧ e = .production p) ∧
    (∀ row column, (g.buildTable [] []).1.get? row column = none ↔
      ∀ p ∈ g.productions, ¬ g.Predicts p row column) ∧
    ((g.buildTable [] []).1.conflicts =
        (overwrites g.knownSets.1 g.knownSets.2.1 [] g.productions).map Overwrite.diagnostic ∧
      ∀ row column, (∃ o ∈ overwrites g.knownSets.1 g.knownSets.2.1 [] g.productions,
          o.row = row ∧ o.column = column) ↔
        ∃ p ∈ g.productions, ∃ q ∈ g.productions, p ≠ q ∧ g.Predicts p row column ∧
          g.Predicts q row column) ∧
    ((g.buildTable [] []).1.isConflictFree = true ↔
      ¬ ∃ row column, ∃ p ∈ g.productions, ∃ q ∈ g.productions, p ≠ q ∧
        g.Predicts p row column ∧ g.Predicts q row column) ∧
    (g.Reachable → (g.buildTable [] []).1.isConflictFree = true →
      ∀ h : Grammar, h.Reachable → h.productions.Perm g.productions → h.start = g.start →
        (h.buildTable [] []).1.isConflictFree = true ∧
          ∀ row column, (h.buildTable [] []).1.get? row column =
            (g.buildTable [] []).1.get? row column) := by
  refine ⟨fun row column e => ?_, fun row column => ?_, ⟨?_, fun row column => ?_⟩, ?_, ?_⟩
  · simp only [get?_buildTable_nil, Option.map_eq_some_iff, lastSelecting_eq_some_iff,
      predicts_iff_selects]
    constructor
    · rintro ⟨p, ⟨front, behind, hps, hp, hbehind⟩, rfl⟩
      exact ⟨front, p, behind, hps, hp, hbehind, rfl⟩
    · rintro ⟨front, p, behind, hps, hp, hbehind, rfl⟩
      exact ⟨p, ⟨front, behind, hps, hp, hbehind⟩, rfl⟩
  · simp only [get?_buildTable_nil, Option.map_eq_none_iff, lastSelecting_eq_none_iff,
      predicts_iff_selects]
  · rw [buildTable_nil, Table.conflicts_ofProductions]
  · simp only [exists_mem_overwrites_iff, predicts_iff_selects]
  · rw [isConflictFree_buildTable_iff]
    constructor
    · rintro hc ⟨row, column, p, hp, q, hq, hne, hpp, hqp⟩
      exact hne (hc p hp q hq row column hpp hqp)
    · intro hnone p hp q hq row column hpp hqp
      by_contra hne
      exact hnone ⟨row, column, p, hp, q, hq, hne, hpp, hqp⟩
  · -- Without conflicts a cell holds any production predicted there, whatever the order.
    intro hg hc h hh hperm hs
    have hps : ∀ p, p ∈ h.productions ↔ p ∈ g.productions := fun p => hperm.mem_iff
    have hpre : ∀ p row column, h.Predicts p row column ↔ g.Predicts p row column :=
      fun p row column => predicts_congr hh hg hps hs
    have hc' : (h.buildTable [] []).1.isConflictFree = true := by
      rw [isConflictFree_buildTable_iff] at hc ⊢
      intro p hp q hq row column hpp hqp
      exact hc p ((hps p).1 hp) q ((hps q).1 hq) row column ((hpre p row column).1 hpp)
        ((hpre q row column).1 hqp)
    refine ⟨hc', fun row column => Option.ext fun e => ?_⟩
    rw [get?_eq_some_iff_of_isConflictFree hc', get?_eq_some_iff_of_isConflictFree hc]
    simp only [hps, hpre]

/-- A list of `b` behind an `a`, its productions read from either end. -/
theorem buildTable_predicts_reversed :
    let items : List ProductionItem := [.sides ⟨"S", ["A", "X"]⟩, .sides ⟨"A", ["a"]⟩,
      .sides ⟨"X", ["b", "X"]⟩, .sides ⟨"X", []⟩]
    let g : Grammar :=
      { nonTerminals := ["S", "A", "X"], terminals := ["a", "b"], start := some "S"
        productions := [⟨"S", .nonTerminal "A", [.nonTerminal "X"]⟩, ⟨"A", .terminal "a", []⟩,
          ⟨"X", .terminal "b", [.nonTerminal "X"]⟩, ⟨"X", .epsilon, []⟩] }
    let h : Grammar := { g with productions := g.productions.reverse }
    build "" "" ["S", "A", "X"] ["a", "b"] items (some "S") = .ok g ∧
    build "" "" ["S", "A", "X"] ["a", "b"] items.reverse (some "S") = .ok h ∧
    (g.buildTable [] []).1.isConflictFree = true ∧
    (h.buildTable [] []).1.isConflictFree = true ∧
    (∀ row column, (h.buildTable [] []).1.get? row column =
      (g.buildTable [] []).1.get? row column) ∧
    (h.buildTable [] []).1.get? "X" endName = some (.production ⟨"X", .epsilon, []⟩) := by
  intro items g h
  have hg : build "" "" ["S", "A", "X"] ["a", "b"] items (some "S") = .ok g := rfl
  have hh : build "" "" ["S", "A", "X"] ["a", "b"] items.reverse (some "S") = .ok h := rfl
  have hc : (g.buildTable [] []).1.isConflictFree = true := by decide +kernel
  obtain ⟨hfree, hcells⟩ := (buildTable_predicts g).2.2.2.2 (.build hg) hc h (.build hh)
    (List.reverse_perm g.productions) rfl
  refine ⟨hg, hh, hc, hfree, hcells, ?_⟩
  rw [hcells]
  decide +kernel

end Grammar

end PredictiveParsing
