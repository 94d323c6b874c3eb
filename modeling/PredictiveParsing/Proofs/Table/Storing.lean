import Mathlib.Data.List.Induction
import Mathlib.Data.List.Nodup
import Mathlib.Data.List.ProdSigma
import PredictiveParsing.Table

/-
A table as a map from cells to entries.

Entries are stored by row and column, and shown by going through the rows and
the columns.  The two agree: storing takes in the row and the column of an entry,
so whatever can be looked up is shown, and it is shown where its cell is.

* `get?_exchangeAll` — a cell holds what was stored in it last;
* `IsFramed` — a table in order: its rows, its columns, and nothing outside;
* `Extends` — what becomes of rows and columns;
* `IsFramed.put`, `IsFramed.extends_put` — what storing does to them;
* `cells_filled`, `IsFramed.mem_filled_iff` — the entries that are shown;
* `exchangeAll_ofFrame` — a table in which entries were stored, one after the
  other.

Design notes:

* The columns are those in front of the end marker and then the end marker.  In
  front of it, columns grow as rows do.
-/
namespace PredictiveParsing

namespace Table

variable {t t' t'' : Table} {row column : String}

/-! ### Rows and columns that are taken in -/

section

variable {name : String} {names : List String}

theorem mem_withRow {n : String} : n ∈ withRow name names ↔ n ∈ names ∨ n = name := by
  rw [withRow]
  split
  · next h => exact ⟨.inl, fun hn => hn.elim id fun he => he ▸ h⟩
  · simp

theorem nodup_withRow (h : names.Nodup) : (withRow name names).Nodup := by
  rw [withRow]
  split
  · exact h
  · next hn =>
    rw [← List.concat_eq_append]
    exact h.concat hn

theorem prefix_withRow : names <+: withRow name names := by
  rw [withRow]
  split
  · exact List.prefix_rfl
  · exact List.prefix_append names [name]

end

/-- In front of the last column, columns are taken in as rows are. -/
theorem withColumn_concat (name last : String) (front : List String) :
    withColumn name (front ++ [last]) =
      (if name = last then front else withRow name front) ++ [last] := by
  rw [withColumn, withRow]
  by_cases hlast : name = last
  · simp [hlast]
  · by_cases hfront : name ∈ front
    · simp [hlast, hfront]
    · simp [hlast, hfront]

/-- The columns in front of the end marker with one more; the end marker itself
is not taken in. -/
def withFront (name : String) (front : List String) : List String :=
  if name = endName then front else withRow name front

theorem columns_put {front : List String} (h : t.columns = front ++ [endName]) (row column : String)
    (e : Entry) : (t.put row column e).columns = withFront column front ++ [endName] := by
  rw [put, h, withColumn_concat]
  rfl

theorem prefix_withFront (name : String) (front : List String) : front <+: withFront name front := by
  rw [withFront]
  split
  · exact List.prefix_rfl
  · exact prefix_withRow

/-! ### The frame -/

/-- A table in order: no row and no column is there twice, the end marker is the
last column, and all that is stored is in a row and a column. -/
structure IsFramed (t : Table) : Prop where
  nodup_rows : t.rows.Nodup
  nodup_columns : t.columns.Nodup
  getLast?_columns : t.columns.getLast? = some endName
  mem_of_get? : ∀ row column e, t.get? row column = some e → row ∈ t.rows ∧ column ∈ t.columns

/-- A later table has the rows and the columns of an earlier one in their order.
New rows come behind the others, and new columns right before the last one. -/
structure Extends (t' t : Table) : Prop where
  rows : t.rows <+: t'.rows
  columns : t.columns.Sublist t'.columns
  front : t.columns.dropLast <+: t'.columns.dropLast

theorem Extends.refl (t : Table) : t.Extends t :=
  ⟨List.prefix_rfl, List.Sublist.refl _, List.prefix_rfl⟩

theorem Extends.trans (h' : t''.Extends t') (h : t'.Extends t) : t''.Extends t :=
  ⟨h.rows.trans h'.rows, h.columns.trans h'.columns, h.front.trans h'.front⟩

theorem isFramed_ofFrame {rows columns : List String} (hrows : rows.Nodup)
    (hcolumns : columns.Nodup) : (ofFrame rows columns).IsFramed := by
  refine ⟨hrows, ?_, List.getLast?_concat, fun _ _ _ h => by cases h⟩
  rw [ofFrame, ← List.concat_eq_append, List.nodup_concat]
  exact ⟨by simp, hcolumns.filter _⟩

namespace IsFramed

/-- The columns in front of the end marker. -/
theorem exists_front (h : t.IsFramed) : ∃ front : List String,
    t.columns = front ++ [endName] ∧ front.Nodup ∧ endName ∉ front := by
  obtain ⟨front, hfront⟩ := List.getLast?_eq_some_iff.1 h.getLast?_columns
  have hnodup := h.nodup_columns
  rw [hfront, ← List.concat_eq_append, List.nodup_concat] at hnodup
  exact ⟨front, hfront, hnodup.2, hnodup.1⟩

/-- The end marker is one column. -/
theorem count_endName (h : t.IsFramed) : t.columns.count endName = 1 :=
  List.count_eq_one_of_mem h.nodup_columns (List.mem_of_getLast? h.getLast?_columns)

/-- Storing keeps rows and columns in their order. -/
theorem extends_put (h : t.IsFramed) (row column : String) (e : Entry) :
    (t.put row column e).Extends t := by
  obtain ⟨front, hfront, -⟩ := h.exists_front
  have hcolumns := columns_put hfront row column e
  have hpre := prefix_withFront column front
  refine ⟨prefix_withRow, ?_, ?_⟩
  · rw [hcolumns, hfront]
    exact hpre.sublist.append (List.Sublist.refl _)
  · rw [hcolumns, hfront, List.dropLast_concat, List.dropLast_concat]
    exact hpre

end IsFramed

/-! ### Storing one entry -/

/-- A table has the row and the column of what is stored in it. -/
theorem IsFramed.mem_put (h : t.IsFramed) (row column : String) (e : Entry) :
    row ∈ (t.put row column e).rows ∧ column ∈ (t.put row column e).columns := by
  obtain ⟨front, hfront, -⟩ := h.exists_front
  refine ⟨mem_withRow.2 (.inr rfl), ?_⟩
  rw [columns_put hfront, List.mem_append, List.mem_singleton, withFront]
  split
  · next he => exact .inr he
  · exact .inl (mem_withRow.2 (.inr rfl))

/-- **Storing keeps a table in order.** -/
theorem IsFramed.put (h : t.IsFramed) (row column : String) (e : Entry) :
    (t.put row column e).IsFramed := by
  obtain ⟨front, hfront, hnodup, hend⟩ := h.exists_front
  have hcolumns := columns_put hfront row column e
  have hne : t.columns ≠ [] := by
    rw [hfront]
    exact List.append_ne_nil_of_right_ne_nil _ (List.cons_ne_nil _ _)
  have hextends := h.extends_put row column e
  refine ⟨nodup_withRow h.nodup_rows, ?_, ?_, ?_⟩
  · rw [hcolumns, ← List.concat_eq_append, List.nodup_concat, withFront]
    split
    · exact ⟨hend, hnodup⟩
    · next hne => exact ⟨by simp [mem_withRow, hend, Ne.symm hne], nodup_withRow hnodup⟩
  · rw [getLast?_columns_put row column e hne, h.getLast?_columns]
  · intro row' column' e' he
    -- Either it is what is stored now, or it was in a row and a column before.
    rw [get?_put] at he
    split at he
    · next hcell =>
      cases hcell
      exact h.mem_put row column e
    · obtain ⟨hrow, hcolumn⟩ := h.mem_of_get? _ _ _ he
      exact ⟨hextends.rows.subset hrow, hextends.columns.subset hcolumn⟩

/-! ### Storing one entry after the other -/

/-- The table after entries were stored, each with its row and its column. -/
def exchangeAll (es : List (String × String × Entry)) (t : Table) : Table :=
  es.foldl (fun t e => (t.exchange e.1 e.2.1 e.2.2).2) t

theorem exchangeAll_concat (es : List (String × String × Entry)) (e : String × String × Entry)
    (t : Table) : exchangeAll (es ++ [e]) t = (exchangeAll es t).put e.1 e.2.1 e.2.2 := by
  rw [exchangeAll, List.foldl_concat, exchange_snd]
  rfl

/-- **A cell holds what was stored in it last**, and otherwise what it held. -/
theorem get?_exchangeAll (es : List (String × String × Entry)) (t : Table) (row column : String) :
    (exchangeAll es t).get? row column =
      ((es.reverse.find? fun e => (e.1, e.2.1) = (row, column)).map (·.2.2)).or
        (t.get? row column) := by
  induction es using List.reverseRecOn with
  | nil => rfl
  | append_singleton es e ih =>
    rw [exchangeAll_concat, get?_put, List.reverse_concat, List.find?_cons, ih]
    by_cases h : (e.1, e.2.1) = (row, column)
    · simp [h]
    · simp [h]

/-- However much is stored, a table stays in order and extends what it was. -/
theorem IsFramed.exchangeAll (h : t.IsFramed) (es : List (String × String × Entry)) :
    (t.exchangeAll es).IsFramed ∧ (t.exchangeAll es).Extends t := by
  induction es using List.reverseRecOn with
  | nil => exact ⟨h, .refl t⟩
  | append_singleton es e ih =>
    rw [exchangeAll_concat]
    exact ⟨ih.1.put _ _ _, (ih.1.extends_put _ _ _).trans ih.2⟩

/-! ### The entries that are shown -/

/-- The entries are shown in the order of their cells, row by row. -/
theorem filled_eq_filterMap (t : Table) : t.filled =
    (t.rows ×ˢ t.columns).filterMap fun c => (t.get? c.1 c.2).map fun e => (c.1, c.2, e) := by
  show t.rows.flatMap t.filledRow =
    (t.rows.flatMap fun row => t.columns.map (Prod.mk row)).filterMap _
  rw [List.filterMap_flatMap]
  simp only [List.filterMap_map]
  rfl

/-- The cells of the entries that are shown are those that hold one. -/
theorem cells_filled (t : Table) : (t.filled.map fun e => (e.1, e.2.1)) =
    (t.rows ×ˢ t.columns).filter fun c => (t.get? c.1 c.2).isSome := by
  rw [filled_eq_filterMap, List.map_filterMap, ← List.filterMap_eq_filter]
  refine List.filterMap_congr fun c _ => ?_
  cases h : t.get? c.1 c.2 with
  | none => simp [Option.guard, h]
  | some e => simp [Option.guard, h]

namespace IsFramed

/-- What is shown is what can be looked up. -/
theorem mem_filled_iff (h : t.IsFramed) {e : Entry} :
    (row, column, e) ∈ t.filled ↔ t.get? row column = some e := by
  rw [filled_eq_filterMap, List.mem_filterMap]
  constructor
  · rintro ⟨c, -, he⟩
    obtain ⟨e', he', hc⟩ := Option.map_eq_some_iff.1 he
    cases hc
    exact he'
  · intro he
    refine ⟨(row, column), List.mem_product.2 (h.mem_of_get? _ _ _ he), ?_⟩
    rw [he]
    rfl

/-- No cell is shown twice. -/
theorem nodup_cells_filled (h : t.IsFramed) : (t.filled.map fun e => (e.1, e.2.1)).Nodup := by
  rw [cells_filled]
  exact (h.nodup_rows.product h.nodup_columns).filter _

end IsFramed

/-- **A table is a map from cells to entries, and shows all of it.**  Whatever is
stored in an empty table whose rows and columns are without repeats: a cell holds
what was stored in it last; storing once more returns what the cell held and
changes no other cell; rows and columns are still without repeats, in their old
order, and the end marker is one of them, the last column; and the entries that
are shown are those that can be looked up, each once, row by row. -/
theorem exchangeAll_ofFrame {rows columns : List String} (hrows : rows.Nodup)
    (hcolumns : columns.Nodup) (es : List (String × String × Entry)) :
    let t := exchangeAll es (ofFrame rows columns)
    (∀ row column, t.get? row column =
      (es.reverse.find? fun e => (e.1, e.2.1) = (row, column)).map (·.2.2)) ∧
    (∀ row column e,
      (t.exchange row column e).1 = t.get? row column ∧
      (t.exchange row column e).2.get? row column = some e ∧
      (∀ row' column', (row', column') ≠ (row, column) →
        (t.exchange row column e).2.get? row' column' = t.get? row' column') ∧
      (t.exchange row column e).2.Extends t) ∧
    (t.rows.Nodup ∧ t.columns.Nodup ∧ t.Extends (ofFrame rows columns)) ∧
    (t.columns.count endName = 1 ∧ t.columns.getLast? = some endName) ∧
    (∀ row column e, (row, column, e) ∈ t.filled ↔ t.get? row column = some e) ∧
    ((t.filled.map fun e => (e.1, e.2.1)).Nodup ∧
      (t.filled.map fun e => (e.1, e.2.1)).Sublist (t.rows ×ˢ t.columns)) := by
  intro t
  obtain ⟨hframed, hextends⟩ := (isFramed_ofFrame hrows hcolumns).exchangeAll es
  have hcells : ∀ row column, t.get? row column =
      (es.reverse.find? fun e => (e.1, e.2.1) = (row, column)).map (·.2.2) := by
    intro row column
    rw [get?_exchangeAll]
    exact Option.or_none
  have hsublist : (t.filled.map fun e => (e.1, e.2.1)).Sublist (t.rows ×ˢ t.columns) := by
    rw [cells_filled]
    exact List.filter_sublist
  refine ⟨hcells, fun row column e => ?_, ⟨hframed.nodup_rows, hframed.nodup_columns, hextends⟩,
    ⟨hframed.count_endName, hframed.getLast?_columns⟩, fun _ _ _ => hframed.mem_filled_iff,
    hframed.nodup_cells_filled, hsublist⟩
  rw [exchange_fst, exchange_snd]
  exact ⟨rfl, get?_put_self _ _ _ _, fun _ _ hne => get?_put_of_ne hne _ _,
    hframed.extends_put row column e⟩

/-- The end marker is given as the first column, a cell is stored in twice, a row
and a column are new, and one entry is stored under the end marker. -/
theorem exchangeAll_ofFrame_grown :
    let p : Entry := .production ⟨"S", .terminal "a", []⟩
    let q : Entry := .production ⟨"S", .epsilon, []⟩
    let f : Entry := .errorFunction { identifier := "e", action := .deleteInput }
    let es := [("X", endName, f), ("S", "a", p), ("X", "c", p), ("S", "a", q)]
    let t := exchangeAll es (ofFrame ["S", "A"] [endName, "a"])
    (["S", "A"].Nodup ∧ [endName, "a"].Nodup) ∧
    (t.rows = ["S", "A", "X"] ∧ t.columns = ["a", "c", endName] ∧ t.columns.count endName = 1) ∧
    (t.get? "S" "a" = some q ∧ t.get? "A" "a" = none ∧ (t.exchange "S" "a" p).1 = some q) ∧
    t.filled = [("S", "a", q), ("X", "c", p), ("X", endName, f)] := by
  intro p q f es t
  have hrows : ["S", "A"].Nodup := by decide
  have hcolumns : [endName, "a"].Nodup := by decide
  obtain ⟨hcells, hexchange, -, ⟨hcount, -⟩, -⟩ := exchangeAll_ofFrame hrows hcolumns es
  have hlast : t.get? "S" "a" = some q := hcells "S" "a"
  exact ⟨⟨hrows, hcolumns⟩, ⟨by decide, by decide, hcount⟩,
    ⟨hlast, hcells "A" "a", (hexchange "S" "a" p).1.trans hlast⟩, by decide⟩

end Table

end PredictiveParsing
