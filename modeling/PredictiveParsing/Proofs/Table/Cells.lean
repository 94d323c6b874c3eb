import Mathlib.Data.List.Induction
import PredictiveParsing.Table.Construction

/-
What the cells of a built table hold.

* `Production.Selects` — a production is entered in a cell;
* `get?_ofProductions` — a cell holds the last production that is entered in
  it;
* `ofProductions_conflicts_eq_nil_iff` — no conflict is noted exactly if no
  cell is selected by two different productions;
* `get?_place`, `production_buildTable_iff` — error functions go to empty
  cells, so the productions of a table are those it has without them.

Design notes:

* Entering is a fold over the productions; the lemmas go from a list of
  productions to the list with one more behind it.
-/
namespace PredictiveParsing

/-- The production is entered in the cell. -/
def Production.Selects (first follow : Family) (p : Production) (row column : String) : Prop :=
  p.antecedent = row ∧ column ∈ p.selected first follow

instance (first follow : Family) (p : Production) (row column : String) :
    Decidable (p.Selects first follow row column) :=
  inferInstanceAs (Decidable (_ ∧ _))

variable {first follow : Family}

/-- A production is entered under what its consequent begins with, and under
what can follow its antecedent if that is `ε`. -/
theorem Production.selects_iff {p : Production} {row column : String} :
    p.Selects first follow row column ↔ p.antecedent = row ∧
      (column ∈ p.firstSet first ∧ column ≠ epsilonName ∨
        epsilonName ∈ p.firstSet first ∧ column ∈ follow.of p.antecedent) := by
  unfold Selects selected
  rw [List.mem_append, SymbolSet.mem_difference, List.mem_singleton]
  by_cases he : epsilonName ∈ p.firstSet first <;> simp [he]

namespace Table

/-! ### Entering one production -/

theorem get?_enter (t : Table) (p : Production) (a row column : String) :
    (t.enter p a).get? row column =
      if p.antecedent = row ∧ a = column then some (.production p) else t.get? row column := by
  have hcells : (t.enter p a).get? row column =
      (t.put p.antecedent a (.production p)).get? row column := by
    rw [enter]
    dsimp only [exchange_fst, exchange_snd]
    split
    · rfl
    · split <;> rfl
  rw [hcells, get?_put]
  simp only [Prod.mk.injEq]

/-- Entering notes a conflict if the cell holds anything else. -/
theorem enter_conflicts_eq_nil_iff (t : Table) (p : Production) (a : String) :
    (t.enter p a).conflicts = [] ↔
      t.conflicts = [] ∧ ∀ e, t.get? p.antecedent a = some e → e = .production p := by
  rw [enter]
  dsimp only [exchange_fst, exchange_snd]
  split
  · next h => simp [h, put]
  · next previous h =>
    split
    · next he => simp [h, he, put]
    · next he => simp [h, he, put]

theorem get?_foldl_enter (p : Production) (as : List String) (t : Table) (row column : String) :
    (as.foldl (fun t a => t.enter p a) t).get? row column =
      if p.antecedent = row ∧ column ∈ as then some (.production p) else t.get? row column := by
  induction as generalizing t with
  | nil => simp
  | cons a as ih =>
    rw [List.foldl_cons, ih, get?_enter]
    by_cases ha : a = column
    · subst ha
      by_cases hr : p.antecedent = row <;> simp [hr]
    · have ha' : ¬ column = a := fun h => ha h.symm
      simp [ha, ha']

theorem foldl_enter_conflicts_eq_nil_iff (p : Production) (as : List String) (t : Table) :
    (as.foldl (fun t a => t.enter p a) t).conflicts = [] ↔
      t.conflicts = [] ∧
        ∀ a ∈ as, ∀ e, t.get? p.antecedent a = some e → e = .production p := by
  induction as generalizing t with
  | nil => simp
  | cons a as ih =>
    rw [List.foldl_cons, ih, enter_conflicts_eq_nil_iff, and_assoc]
    refine and_congr_right fun _ => ?_
    rw [List.forall_mem_cons]
    refine and_congr_right fun ha => forall₂_congr fun b _ => ?_
    -- A cell entered a moment ago holds the production itself.
    rw [get?_enter]
    by_cases hb : a = b
    · subst hb
      simpa using ha
    · simp [hb]

theorem get?_enterAll (t : Table) (p : Production) (row column : String) :
    (enterAll first follow t p).get? row column =
      if p.Selects first follow row column then some (.production p) else t.get? row column :=
  get?_foldl_enter _ _ _ _ _

/-! ### Entering all productions -/

section

variable {ps : List Production} {rows columns : List String} {row column : String}

/-- A cell holds the last of the entered productions that selects it. -/
theorem get?_foldl_enterAll (ps : List Production) (rows columns : List String)
    (row column : String) :
    (ps.foldl (enterAll first follow) (ofFrame rows columns)).get? row column =
      ((ps.filter fun p => p.Selects first follow row column).getLast?).map .production := by
  induction ps using List.reverseRecOn with
  | nil => rfl
  | append_singleton ps p ih =>
    rw [List.foldl_append, List.foldl_cons, List.foldl_nil, get?_enterAll, ih, List.filter_append]
    by_cases h : p.Selects first follow row column <;> simp [h]

theorem mem_of_get?_foldl_enterAll {e : Entry}
    (h : (ps.foldl (enterAll first follow) (ofFrame rows columns)).get? row column = some e) :
    ∃ p ∈ ps, p.Selects first follow row column ∧ e = .production p := by
  rw [get?_foldl_enterAll] at h
  obtain ⟨p, hp, rfl⟩ := Option.map_eq_some_iff.1 h
  have hm := List.mem_of_getLast? hp
  rw [List.mem_filter] at hm
  exact ⟨p, hm.1, by simpa using hm.2, rfl⟩

/-- A cell that is selected is not empty. -/
theorem exists_get?_foldl_enterAll (rows columns : List String) {p : Production} (hp : p ∈ ps)
    (hs : p.Selects first follow row column) :
    ∃ q ∈ ps, q.Selects first follow row column ∧
      (ps.foldl (enterAll first follow) (ofFrame rows columns)).get? row column =
        some (.production q) := by
  cases hl : (ps.filter fun p => p.Selects first follow row column).getLast? with
  | none =>
    rw [List.getLast?_eq_none_iff] at hl
    have hm : p ∈ ps.filter fun p => p.Selects first follow row column :=
      List.mem_filter.2 ⟨hp, by simpa using hs⟩
    simp [hl] at hm
  | some q =>
    have hm := List.mem_of_getLast? hl
    rw [List.mem_filter] at hm
    refine ⟨q, hm.1, by simpa using hm.2, ?_⟩
    rw [get?_foldl_enterAll, hl]
    rfl

theorem foldl_enterAll_conflicts_eq_nil_iff (ps : List Production) (rows columns : List String) :
    (ps.foldl (enterAll first follow) (ofFrame rows columns)).conflicts = [] ↔
      ∀ p ∈ ps, ∀ q ∈ ps, ∀ row column,
        p.Selects first follow row column → q.Selects first follow row column → p = q := by
  induction ps using List.reverseRecOn with
  | nil => simp [ofFrame]
  | append_singleton ps p ih =>
    rw [List.foldl_append, List.foldl_cons, List.foldl_nil, enterAll,
      foldl_enter_conflicts_eq_nil_iff, ih]
    constructor
    · rintro ⟨hps, hp⟩ q hq r hr row column hsq hsr
      -- An earlier production and the last one meet in what the cell held before the last.
      have hlast : ∀ s ∈ ps, s.Selects first follow row column →
          p.Selects first follow row column → s = p := by
        intro s hs hss hsp
        obtain ⟨l, hl, hsl, hcell⟩ := exists_get?_foldl_enterAll rows columns hs hss
        have hlp : Entry.production l = .production p :=
          hp column hsp.2 _ (by rw [hsp.1]; exact hcell)
        exact (hps s hs l hl row column hss hsl).trans (Entry.production.inj hlp)
      rw [List.mem_append, List.mem_singleton] at hq hr
      rcases hq with hq | rfl <;> rcases hr with hr | rfl
      · exact hps q hq r hr row column hsq hsr
      · exact hlast q hq hsq hsr
      · exact (hlast r hr hsr hsq).symm
      · rfl
    · intro h
      refine ⟨fun q hq r hr => h q (by simp [hq]) r (by simp [hr]), fun a ha e he => ?_⟩
      obtain ⟨q, hq, hsq, rfl⟩ := mem_of_get?_foldl_enterAll he
      rw [h q (by simp [hq]) p (by simp) p.antecedent a hsq ⟨rfl, ha⟩]

end

/-- **A cell holds the last production that selects it**, and is empty if none
does. -/
theorem get?_ofProductions (g : Grammar) (row column : String) :
    (ofProductions g first follow).get? row column =
      ((g.productions.filter fun p => p.Selects first follow row column).getLast?).map
        .production :=
  get?_foldl_enterAll _ _ _ row column

theorem mem_of_get?_ofProductions {g : Grammar} {row column : String} {e : Entry}
    (h : (ofProductions g first follow).get? row column = some e) :
    ∃ p ∈ g.productions, p.Selects first follow row column ∧ e = .production p :=
  mem_of_get?_foldl_enterAll h

theorem get?_ofProductions_ne (g : Grammar) (row column : String) (f : ErrorFunction) :
    (ofProductions g first follow).get? row column ≠ some (.errorFunction f) := by
  intro he
  obtain ⟨p, -, -, hp⟩ := mem_of_get?_ofProductions he
  cases hp

/-- **No conflict is noted exactly if no two different productions select one
cell.** -/
theorem ofProductions_conflicts_eq_nil_iff (g : Grammar) :
    (ofProductions g first follow).conflicts = [] ↔
      ∀ p ∈ g.productions, ∀ q ∈ g.productions, ∀ row column,
        p.Selects first follow row column → q.Selects first follow row column → p = q :=
  foldl_enterAll_conflicts_eq_nil_iff _ _ _

/-- If no conflict is noted, a cell holds every production that selects it. -/
theorem get?_of_selects {g : Grammar} (hc : (ofProductions g first follow).conflicts = [])
    {row column : String} {p : Production} (hp : p ∈ g.productions)
    (hs : p.Selects first follow row column) :
    (ofProductions g first follow).get? row column = some (.production p) := by
  obtain ⟨q, hq, hsq, hcell⟩ := exists_get?_foldl_enterAll g.nonTerminals g.terminals hp hs
  rw [(ofProductions_conflicts_eq_nil_iff g).1 hc p hp q hq row column hs hsq]
  exact hcell

/-! ### Error functions -/

theorem register_cells (t : Table) (f : ErrorFunction) : (t.register f).cells = t.cells := by
  rw [register]
  split
  · rfl
  · split <;> rfl

theorem foldl_register_cells (fs : List ErrorFunction) (t : Table) :
    (fs.foldl register t).cells = t.cells := by
  induction fs generalizing t with
  | nil => rfl
  | cons f fs ih => rw [List.foldl_cons, ih, register_cells]

/-- Placing an error function changes no cell but an empty one. -/
theorem get?_place (t : Table) (cell : (String × String) × String) (row column : String) :
    (t.place cell).get? row column = t.get? row column ∨
      t.get? row column = none ∧ ∃ f, (t.place cell).get? row column = some (.errorFunction f) := by
  unfold place
  dsimp only
  split
  · exact .inl rfl
  · next f _ =>
    split
    · exact .inl rfl
    · split
      · exact .inl rfl
      · next hn =>
        by_cases he : (row, column) = (cell.1.1, cell.1.2)
        · cases he
          exact .inr ⟨hn, f, get?_put_self _ _ _ _⟩
        · exact .inl (get?_put_of_ne he _ _)

theorem production_foldl_place_iff (cells : ErrorCells) (t : Table) (row column : String)
    (p : Production) :
    (cells.foldl place t).get? row column = some (.production p) ↔
      t.get? row column = some (.production p) := by
  induction cells generalizing t with
  | nil => rfl
  | cons cell cells ih =>
    rw [List.foldl_cons, ih]
    rcases get?_place t cell row column with h | ⟨hn, f, hf⟩
    · rw [h]
    · simp [hn, hf]

end Table

namespace Grammar

/-- The productions of a built table are those it has without error functions. -/
theorem production_buildTable_iff (g : Grammar) (functions : List ErrorFunction)
    (cells : ErrorCells) (row column : String) (p : Production) :
    (g.buildTable functions cells).1.get? row column = some (.production p) ↔
      (Table.ofProductions g.knownSets.2.2 g.knownSets.1 g.knownSets.2.1).get? row column =
        some (.production p) := by
  have hcells : ∀ t : Table, (functions.foldl Table.register t).get? row column =
      t.get? row column := by
    intro t
    unfold Table.get?
    rw [Table.foldl_register_cells]
  rw [buildTable]
  dsimp only
  rw [Table.production_foldl_place_iff, hcells]

end Grammar

end PredictiveParsing
