import Mathlib.Data.List.ReduceOption
import PredictiveParsing.Proofs.Table.Prediction

/-
What becomes of error functions when a table is built.

They only fill cells that the productions leave empty, and of each function that
is not taken in and each cell that is not filled there is one issue.

* `Table.accepted?` — the function that an identifier stands for;
* `Table.refusal?`, `Table.misplacement?` — the issue of one function and of one
  cell, if there is any;
* `register_cases`, `place_cases` — what one function and one cell do;
* `Table.takenIn`, `Table.refusals`, `foldl_register_eq` — what all functions do;
* `Table.Filling`, `foldl_place_filling` — what all cells do;
* `Table.Recovery`, `buildTable_recovery` — a table next to the one without
  error functions.

Design notes:

* Whether a function is taken in depends on those in front of it; whether a cell
  is filled only depends on the functions that were taken in and on the
  productions, for the other cells are different ones.
-/
namespace PredictiveParsing

namespace Table

/-- The function that an identifier stands for: the first one of that identifier
that has the symbol it needs. -/
def accepted? (functions : List ErrorFunction) (identifier : String) : Option ErrorFunction :=
  functions.find? fun f => f.identifier == identifier && !f.lacksSymbol

/-- The issue of a function behind others, unless it is taken in. -/
def refusal? (earlier : List ErrorFunction) (f : ErrorFunction) : Option Diagnostic :=
  if accepted? earlier f.identifier ≠ none then
    some (.about .duplicateErrorFunction f.identifier
      ("Error function '" ++ f.identifier ++ "' is defined more than once."))
  else if f.lacksSymbol then
    some (.about .missingErrorSymbol f.identifier
      ("Error function '" ++ f.identifier ++ "' (" ++ f.action.code ++ ") needs a symbol."))
  else none

/-- The functions that are taken in behind others, under their identifiers. -/
def takenIn (earlier functions : List ErrorFunction) : OrderedMap String ErrorFunction :=
  (functions.mapIdx fun i f =>
    match refusal? (earlier ++ functions.take i) f with
    | none => some (f.identifier, f)
    | some _ => none).reduceOption

/-- The issues of functions behind others. -/
def refusals (earlier functions : List ErrorFunction) : List Diagnostic :=
  (functions.mapIdx fun i f => refusal? (earlier ++ functions.take i) f).reduceOption

/-- The issue of a cell that is to hold a function, unless it can be filled. -/
def misplacement? (registered : OrderedMap String ErrorFunction) (t : Table)
    (cell : (String × String) × String) : Option Diagnostic :=
  let shown := "M[" ++ cell.1.1 ++ ", " ++ cell.1.2 ++ "]"
  if OrderedMap.get? cell.2 registered = none then
    some (.about .unknownErrorFunction cell.2
      (shown ++ " refers to an unknown error function '" ++ cell.2 ++ "'."))
  else if !t.hasCell cell.1.1 cell.1.2 then
    some (.about .unknownCell cell.1.1 (shown ++ " is not a cell of the table."))
  else
    (t.get? cell.1.1 cell.1.2).map fun e => .about .occupiedCell cell.1.1
      (shown ++ " already holds " ++ e.text ++ "; error function '" ++ cell.2 ++ "' not placed.")

/-- Whether a cell holds the function it is to hold. -/
def holds (t : Table) (cell : (String × String) × String) : Bool :=
  (OrderedMap.get? cell.2 t.errorFunctions).any fun f =>
    t.get? cell.1.1 cell.1.2 = some (.errorFunction f)

/-! ### Functions -/

section

variable {earlier functions : List ErrorFunction} {f : ErrorFunction} {t : Table}

theorem accepted?_append_singleton (i : String) :
    accepted? (earlier ++ [f]) i = (accepted? earlier i).or
      (if f.identifier = i ∧ f.lacksSymbol = false then some f else none) := by
  rw [accepted?, List.find?_append]
  by_cases hi : f.identifier = i <;> cases hl : f.lacksSymbol <;> simp [accepted?, hi, hl]

theorem refusal?_eq_none_iff :
    refusal? earlier f = none ↔ accepted? earlier f.identifier = none ∧ f.lacksSymbol = false := by
  rw [refusal?]
  cases accepted? earlier f.identifier <;> cases f.lacksSymbol <;> simp

theorem accepted?_eq_none_iff {i : String} : accepted? earlier i = none ↔
    ∀ e ∈ earlier, e.identifier = i → e.lacksSymbol = true := by
  simp [accepted?]

/-- A function that is taken in stands for its identifier from then on; one that
is not changes nothing. -/
theorem accepted?_append_of_taken (h : refusal? earlier f = none) (i : String) :
    accepted? (earlier ++ [f]) i =
      (accepted? earlier i).or (OrderedMap.get? i [(f.identifier, f)]) := by
  rw [accepted?_append_singleton, OrderedMap.get?, OrderedMap.get?]
  simp only [(refusal?_eq_none_iff.1 h).2, and_true]

theorem accepted?_append_of_refused (h : refusal? earlier f ≠ none) (i : String) :
    accepted? (earlier ++ [f]) i = accepted? earlier i := by
  rw [accepted?_append_singleton]
  split
  · next hf =>
    obtain ⟨rfl, hl⟩ := hf
    -- It has its symbol, so there is one of its identifier before it.
    cases ha : accepted? earlier f.identifier with
    | none => exact absurd (refusal?_eq_none_iff.2 ⟨ha, hl⟩) h
    | some e => rfl
  · exact Option.or_none

/-- Everything that taking in a function can do, if those before it were taken
in. -/
theorem register_cases (ht : ∀ i, OrderedMap.get? i t.errorFunctions = accepted? earlier i)
    (f : ErrorFunction) :
    (∃ d, refusal? earlier f = some d ∧ t.register f = { t with issues := t.issues ++ [d] }) ∨
    (refusal? earlier f = none ∧
      t.register f = { t with errorFunctions := t.errorFunctions ++ [(f.identifier, f)] }) := by
  rw [register, refusal?, ← ht]
  by_cases hnew : OrderedMap.get? f.identifier t.errorFunctions = none
  · rw [if_neg (OrderedMap.get?_eq_none_iff.1 hnew), if_neg (not_not.2 hnew)]
    split
    · exact .inl ⟨_, rfl, rfl⟩
    · rw [OrderedMap.put_of_get?_eq_none hnew]
      exact .inr ⟨rfl, rfl⟩
  · rw [if_pos (not_not.1 (mt OrderedMap.get?_eq_none_iff.2 hnew)), if_pos hnew]
    exact .inl ⟨_, rfl, rfl⟩

theorem takenIn_cons : takenIn earlier (f :: functions) =
    (if refusal? earlier f = none then [(f.identifier, f)] else []) ++
      takenIn (earlier ++ [f]) functions := by
  rw [takenIn, List.mapIdx_cons, List.take_zero, List.append_nil]
  simp only [List.take_succ_cons, ← List.append_cons, takenIn]
  cases refusal? earlier f with
  | none => rw [List.reduceOption_cons_of_some, if_pos rfl, List.singleton_append]
  | some d => rw [List.reduceOption_cons_of_none, if_neg (by simp), List.nil_append]

theorem refusals_cons : refusals earlier (f :: functions) =
    (refusal? earlier f).toList ++ refusals (earlier ++ [f]) functions := by
  rw [refusals, List.mapIdx_cons, List.take_zero, List.append_nil]
  simp only [List.take_succ_cons, ← List.append_cons, refusals]
  cases refusal? earlier f with
  | none => rw [List.reduceOption_cons_of_none, Option.toList_none, List.nil_append]
  | some d => rw [List.reduceOption_cons_of_some, Option.toList_some, List.singleton_append]

/-- **Each function is taken in or there is one issue of it.** -/
theorem length_takenIn_add (earlier functions : List ErrorFunction) :
    (takenIn earlier functions).length + (refusals earlier functions).length =
      functions.length := by
  induction functions generalizing earlier with
  | nil => rfl
  | cons f functions ih =>
    have hih := ih (earlier ++ [f])
    rw [takenIn_cons, refusals_cons]
    cases refusal? earlier f <;> simp <;> omega

/-- **What taking in functions does**, behind others that were taken in. -/
theorem foldl_register_eq (earlier functions : List ErrorFunction)
    (ht : ∀ i, OrderedMap.get? i t.errorFunctions = accepted? earlier i) :
    functions.foldl register t =
        { t with
          errorFunctions := t.errorFunctions ++ takenIn earlier functions
          issues := t.issues ++ refusals earlier functions } ∧
      ∀ i, OrderedMap.get? i (t.errorFunctions ++ takenIn earlier functions) =
        accepted? (earlier ++ functions) i := by
  induction functions generalizing earlier t with
  | nil =>
    have htaken : takenIn earlier [] = [] := rfl
    have hrefused : refusals earlier [] = [] := rfl
    rw [htaken, hrefused, List.append_nil, List.append_nil, List.append_nil]
    exact ⟨rfl, ht⟩
  | cons f functions ih =>
    rw [List.foldl_cons, takenIn_cons, refusals_cons, List.append_cons earlier]
    rcases register_cases ht f with ⟨d, hd, he⟩ | ⟨hnone, he⟩
    · have hih := ih (t := t.register f) (earlier ++ [f]) fun i => by
        rw [he, accepted?_append_of_refused (by simp [hd])]
        exact ht i
      simpa [he, hd] using hih
    · have hih := ih (t := t.register f) (earlier ++ [f]) fun i => by
        rw [he, accepted?_append_of_taken hnone, ← ht]
        exact OrderedMap.get?_append i _ _
      simpa [he, hnone] using hih

end

/-! ### Cells -/

variable {t r : Table} {cell : (String × String) × String} {cells : ErrorCells}

theorem holds_iff : t.holds cell = true ↔ ∃ f, OrderedMap.get? cell.2 t.errorFunctions = some f ∧
    t.get? cell.1.1 cell.1.2 = some (.errorFunction f) := by
  simp [holds, Option.any_eq_true]

theorem misplacement?_eq_none_iff {registered : OrderedMap String ErrorFunction} :
    misplacement? registered t cell = none ↔ OrderedMap.get? cell.2 registered ≠ none ∧
      cell.1.1 ∈ t.rows ∧ cell.1.2 ∈ t.columns ∧ t.get? cell.1.1 cell.1.2 = none := by
  rw [misplacement?]
  by_cases hf : OrderedMap.get? cell.2 registered = none
  · simp [hf]
  · by_cases hc : t.hasCell cell.1.1 cell.1.2 = true
    · have hmem : cell.1.1 ∈ t.rows ∧ cell.1.2 ∈ t.columns := by simpa [hasCell] using hc
      simp [hf, hc, hmem]
    · have hmem : cell.1.1 ∈ t.rows → cell.1.2 ∉ t.columns := by simpa [hasCell] using hc
      simp only [hf, hc]
      simp
      tauto

/-- Everything that placing a function can do: note an issue, or fill a cell of
the table. -/
theorem place_cases (t : Table) (cell : (String × String) × String) :
    (∃ d, misplacement? t.errorFunctions t cell = some d ∧
      t.place cell = { t with issues := t.issues ++ [d] }) ∨
    ∃ f, misplacement? t.errorFunctions t cell = none ∧
      OrderedMap.get? cell.2 t.errorFunctions = some f ∧
      t.place cell = { t with cells := OrderedMap.put cell.1 (.errorFunction f) t.cells } := by
  rw [place, misplacement?]
  cases hf : OrderedMap.get? cell.2 t.errorFunctions with
  | none => exact .inl ⟨_, rfl, rfl⟩
  | some f =>
    dsimp only
    rw [if_neg (by simp)]
    split
    · exact .inl ⟨_, rfl, rfl⟩
    · next hcell =>
      cases he : t.get? cell.1.1 cell.1.2 with
      | some e => exact .inl ⟨_, rfl, rfl⟩
      | none =>
        -- The table has the row and the column.
        have hmem : cell.1.1 ∈ t.rows ∧ cell.1.2 ∈ t.columns := by simpa [hasCell] using hcell
        exact .inr ⟨f, rfl, rfl, by simp [put, withRow, withColumn, hmem]⟩

/-- What becomes of a cell only depends on it and on the functions. -/
theorem misplacement?_congr {registered : OrderedMap String ErrorFunction}
    (hrows : r.rows = t.rows) (hcolumns : r.columns = t.columns)
    (hcell : r.get? cell.1.1 cell.1.2 = t.get? cell.1.1 cell.1.2) :
    misplacement? registered r cell = misplacement? registered t cell := by
  rw [misplacement?, misplacement?, hasCell, hasCell, hrows, hcolumns, hcell]

/-- The table `r` is `t` with functions placed in those of the cells that can be
filled. -/
structure Filling (t r : Table) (cells : ErrorCells) : Prop where
  rows_eq : r.rows = t.rows
  columns_eq : r.columns = t.columns
  conflicts_eq : r.conflicts = t.conflicts
  errorFunctions_eq : r.errorFunctions = t.errorFunctions
  issues_eq : r.issues = t.issues ++ cells.filterMap (misplacement? t.errorFunctions t)
  holds_of_none : ∀ cell ∈ cells, misplacement? t.errorFunctions t cell = none →
    r.holds cell = true
  get?_eq : ∀ row column, (∀ cell ∈ cells, cell.1 = (row, column) →
    misplacement? t.errorFunctions t cell ≠ none) → r.get? row column = t.get? row column

theorem Filling.place (t : Table) (cell : (String × String) × String) :
    Filling t (t.place cell) [cell] := by
  rcases place_cases t cell with ⟨d, hd, he⟩ | ⟨f, hnone, hf, he⟩
  · rw [he]
    refine ⟨rfl, rfl, rfl, rfl, by simp [hd], ?_, fun _ _ _ => rfl⟩
    intro other ho hnone
    obtain rfl := List.mem_singleton.1 ho
    rw [hd] at hnone
    cases hnone
  · rw [he]
    refine ⟨rfl, rfl, rfl, rfl, by simp [hnone], ?_, ?_⟩
    · intro other ho _
      obtain rfl := List.mem_singleton.1 ho
      exact holds_iff.2 ⟨f, hf, OrderedMap.get?_put_self _ _ _⟩
    · intro row column h
      exact OrderedMap.get?_put_of_ne (fun he => h cell (by simp) he.symm hnone) _ _

/-- Cells are filled one after the other, if no one comes again. -/
theorem Filling.cons {s : Table} (h₁ : Filling t s [cell]) (h₂ : Filling s r cells)
    (hnew : ∀ other ∈ cells, other.1 ≠ cell.1) : Filling t r (cell :: cells) := by
  have hsame : ∀ other ∈ cells, misplacement? s.errorFunctions s other =
      misplacement? t.errorFunctions t other := by
    intro other ho
    rw [h₁.errorFunctions_eq]
    refine misplacement?_congr h₁.rows_eq h₁.columns_eq (h₁.get?_eq _ _ fun c hc he => ?_)
    rw [List.mem_singleton.1 hc] at he
    exact absurd he.symm (hnew other ho)
  refine ⟨h₂.rows_eq.trans h₁.rows_eq, h₂.columns_eq.trans h₁.columns_eq,
    h₂.conflicts_eq.trans h₁.conflicts_eq, h₂.errorFunctions_eq.trans h₁.errorFunctions_eq,
    ?_, ?_, ?_⟩
  · rw [h₂.issues_eq, h₁.issues_eq, List.filterMap_congr hsame, List.append_assoc,
      ← List.filterMap_append, List.singleton_append]
  · intro other ho hnone
    rcases List.mem_cons.1 ho with rfl | ho
    · -- Nothing is placed where it stands later on.
      have hkept : r.get? other.1.1 other.1.2 = s.get? other.1.1 other.1.2 :=
        h₂.get?_eq _ _ fun c hc he => absurd he (hnew c hc)
      have hholds := h₁.holds_of_none other (by simp) hnone
      rwa [holds, hkept, h₂.errorFunctions_eq]
    · exact h₂.holds_of_none other ho ((hsame other ho).trans hnone)
  · intro row column h
    rw [h₂.get?_eq row column fun c hc he => hsame c hc ▸ h c (List.mem_cons_of_mem _ hc) he]
    refine h₁.get?_eq row column fun c hc he => ?_
    rw [List.mem_singleton.1 hc] at he ⊢
    exact h cell List.mem_cons_self he

/-- **What placing functions does**: no cell is in the way of another one. -/
theorem foldl_place_filling (hcells : (OrderedMap.keys cells).Nodup) (t : Table) :
    Filling t (cells.foldl Table.place t) cells := by
  induction cells generalizing t with
  | nil => exact ⟨rfl, rfl, rfl, rfl, by simp, by simp, fun _ _ _ => rfl⟩
  | cons cell cells ih =>
    rw [OrderedMap.keys_cons, List.nodup_cons] at hcells
    rw [List.foldl_cons]
    refine (Filling.place t cell).cons (ih hcells.2 _) fun other ho he => hcells.1 ?_
    exact List.mem_map.2 ⟨other, ho, he⟩

/-- In a table without error functions, the cells that come to hold what they are
to hold are those that can be filled. -/
theorem Filling.holds_iff (h : Filling t r cells) (hcells : (OrderedMap.keys cells).Nodup)
    (ht : ∀ row column f, t.get? row column ≠ some (.errorFunction f)) (hcell : cell ∈ cells) :
    r.holds cell = true ↔ misplacement? t.errorFunctions t cell = none := by
  constructor
  · intro hholds
    by_contra hne
    obtain ⟨f, -, hf⟩ := Table.holds_iff.1 hholds
    rw [h.get?_eq _ _ fun c hc he => ?_] at hf
    · exact ht _ _ f hf
    · -- There is one function for the cell.
      have hget := OrderedMap.get?_of_mem hcells (show (c.1, c.2) ∈ cells from hc)
      rw [he, OrderedMap.get?_of_mem hcells (show (cell.1, cell.2) ∈ cells from hcell)] at hget
      have hc' : c = cell := Prod.ext he (Option.some.inj hget).symm
      rwa [hc']
  · exact h.holds_of_none cell hcell

/-! ### Tables with and without error functions -/

/-- The table `t` is `bare` with the functions and with the cells that they go
to. -/
structure Recovery (bare t : Table) (functions : List ErrorFunction) (cells : ErrorCells) :
    Prop where
  -- The productions and what is known of them stay.
  rows_eq : t.rows = bare.rows
  columns_eq : t.columns = bare.columns
  conflicts_eq : t.conflicts = bare.conflicts
  production_iff : ∀ row column p,
    t.get? row column = some (.production p) ↔ bare.get? row column = some (.production p)
  -- Each function is taken in, under its identifier, or there is one issue of it.
  errorFunctions_eq : t.errorFunctions = takenIn [] functions
  get?_errorFunctions : ∀ i, OrderedMap.get? i t.errorFunctions = accepted? functions i
  refusal?_iff : ∀ (i : Nat) f, functions[i]? = some f →
    (refusal? (functions.take i) f = none ↔ f.lacksSymbol = false ∧
      ∀ e ∈ functions.take i, e.identifier = f.identifier → e.lacksSymbol = true)
  -- Each cell is filled if it can be, or there is one issue of it.
  holds_iff : ∀ cell ∈ cells, t.holds cell = true ↔
    OrderedMap.get? cell.2 t.errorFunctions ≠ none ∧ cell.1.1 ∈ bare.rows ∧
      cell.1.2 ∈ bare.columns ∧ bare.get? cell.1.1 cell.1.2 = none
  misplacement?_iff : ∀ cell ∈ cells,
    misplacement? t.errorFunctions bare cell = none ↔ t.holds cell = true
  get?_eq : ∀ row column, (∀ cell ∈ cells, cell.1 = (row, column) → t.holds cell = false) →
    t.get? row column = bare.get? row column
  -- There are no other issues.
  issues_eq : t.issues =
    refusals [] functions ++ cells.filterMap (misplacement? t.errorFunctions bare)
  length_issues : t.issues.length =
    (functions.length - t.errorFunctions.length) + cells.countP fun cell => !t.holds cell

/-- Taking in functions and then placing them, in a table of productions. -/
theorem recovery_foldl {bare : Table} (functions : List ErrorFunction)
    (hfunctions : bare.errorFunctions = []) (hissues : bare.issues = [])
    (hempty : ∀ row column f, bare.get? row column ≠ some (.errorFunction f))
    (hcells : (OrderedMap.keys cells).Nodup) :
    Recovery bare (cells.foldl place (functions.foldl register bare)) functions cells := by
  obtain ⟨hregister, hget⟩ := foldl_register_eq (t := bare) [] functions
    fun i => by rw [hfunctions]; rfl
  rw [hfunctions, List.nil_append, List.nil_append] at hget
  rw [hregister, hfunctions, hissues, List.nil_append, List.nil_append]
  have hfill := foldl_place_filling hcells
    { bare with errorFunctions := takenIn [] functions, issues := refusals [] functions }
  have hproduction := fun row column p => production_foldl_place_iff cells
    { bare with errorFunctions := takenIn [] functions, issues := refusals [] functions }
    row column p
  generalize cells.foldl place
    { bare with errorFunctions := takenIn [] functions, issues := refusals [] functions } = t at *
  have htaken : t.errorFunctions = takenIn [] functions := hfill.errorFunctions_eq
  have hholds : ∀ cell ∈ cells, t.holds cell = true ↔
      misplacement? t.errorFunctions bare cell = none := by
    intro cell hcell
    rw [htaken]
    exact hfill.holds_iff hcells hempty hcell
  have hnoted : t.issues =
      refusals [] functions ++ cells.filterMap (misplacement? t.errorFunctions bare) := by
    rw [htaken]
    exact hfill.issues_eq
  have hcount : cells.countP (fun cell => !t.holds cell) =
      cells.countP fun cell => (misplacement? t.errorFunctions bare cell).isSome := by
    refine List.countP_congr fun cell hcell => ?_
    rw [Bool.not_eq_true', ← Bool.not_eq_true, hholds cell hcell, Option.isSome_iff_ne_none]
  refine ⟨hfill.rows_eq, hfill.columns_eq, hfill.conflicts_eq, hproduction, htaken, ?_, ?_, ?_,
    fun cell hcell => (hholds cell hcell).symm, ?_, hnoted, ?_⟩
  · intro i
    rw [htaken, hget]
  · intro i f _
    rw [refusal?_eq_none_iff, accepted?_eq_none_iff, and_comm]
  · intro cell hcell
    rw [hholds cell hcell, misplacement?_eq_none_iff]
  · intro row column h
    refine hfill.get?_eq row column fun cell hcell he hnone => ?_
    have hheld := hfill.holds_of_none cell hcell hnone
    rw [h cell hcell he] at hheld
    cases hheld
  · have hlength := length_takenIn_add [] functions
    rw [hnoted, List.length_append, List.length_filterMap_eq_countP, hcount, htaken]
    omega

theorem enter_errorFunctions (t : Table) (p : Production) (a : String) :
    (t.enter p a).errorFunctions = t.errorFunctions ∧ (t.enter p a).issues = t.issues := by
  rw [enter]
  dsimp only [exchange_fst, exchange_snd]
  split
  · exact ⟨rfl, rfl⟩
  · split <;> exact ⟨rfl, rfl⟩

/-- Entering productions takes in no function and notes no issue. -/
theorem ofProductions_errorFunctions (g : Grammar) (first follow : Family) :
    (ofProductions g first follow).errorFunctions = [] ∧
      (ofProductions g first follow).issues = [] := by
  rw [ofProductions]
  refine List.foldlRecOn (motive := fun t : Table => t.errorFunctions = [] ∧ t.issues = []) _ _
    ⟨rfl, rfl⟩ fun t ht p _ => ?_
  refine List.foldlRecOn (motive := fun t : Table => t.errorFunctions = [] ∧ t.issues = []) _ _
    ht fun t ht a _ => ?_
  obtain ⟨hfunctions, hissues⟩ := enter_errorFunctions t p a
  exact ⟨hfunctions.trans ht.1, hissues.trans ht.2⟩

end Table

namespace Grammar

/-- **Error functions only fill empty cells, and every problem is noted once.**
Productions, rows, columns and conflicts are those of the table without error
functions.  Of each identifier the first function that has its symbol is taken
in, and there is one issue of every other one.  A cell is filled if its
identifier stands for a function, the table has the cell and no production holds
it; there is one issue of every other one, and nothing else changes. -/
theorem buildTable_recovery (g : Grammar) (functions : List ErrorFunction) {cells : ErrorCells}
    (hcells : (OrderedMap.keys cells).Nodup) :
    Table.Recovery (g.buildTable [] []).1 (g.buildTable functions cells).1 functions cells := by
  have hbuild : (g.buildTable functions cells).1 = cells.foldl Table.place
      (functions.foldl Table.register (g.buildTable [] []).1) := by
    rw [buildTable_nil, buildTable, knownSets_eq]
    rfl
  have hnone := Table.ofProductions_errorFunctions g g.knownSets.1 g.knownSets.2.1
  rw [← buildTable_nil] at hnone
  rw [hbuild]
  exact Table.recovery_foldl functions hnone.1 hnone.2 g.get?_buildTable_nil_ne hcells

/-- A function without its symbol leaves its identifier to the next one; of the
cells, one can be filled. -/
theorem buildTable_recovery_insertion :
    let g : Grammar :=
      { nonTerminals := ["S"], terminals := ["a", "b"], start := some "S"
        productions := [⟨"S", .terminal "a", [.terminal "b"]⟩] }
    let insertion : ErrorFunction := { identifier := "e", action := .insertInput, symbol := some "a" }
    let functions : List ErrorFunction := [{ identifier := "e", action := .insertInput }, insertion,
      { identifier := "e", action := .deleteInput }]
    let cells : ErrorCells :=
      [(("S", "b"), "e"), (("S", "a"), "e"), (("A", "a"), "e"), (("S", endName), "f")]
    let t := (g.buildTable functions cells).1
    (OrderedMap.keys cells).Nodup ∧ Table.Recovery (g.buildTable [] []).1 t functions cells ∧
      t.get? "S" "b" = some (.errorFunction insertion) ∧
      t.issues.map (·.kind) = [.missingErrorSymbol, .duplicateErrorFunction, .occupiedCell,
        .unknownCell, .unknownErrorFunction] := by
  intro g insertion functions cells t
  have hcells : (OrderedMap.keys cells).Nodup := by decide
  exact ⟨hcells, g.buildTable_recovery functions hcells, by decide +kernel, by decide +kernel⟩

end Grammar

end PredictiveParsing
