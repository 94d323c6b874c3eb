import PredictiveParsing.Grammar
import PredictiveParsing.Table.ErrorFunction

/-
Predictive tables.

A table says what to do with a non-terminal on the stack and a terminal in
front of the input: apply a production, call an error function, or neither.
It has rows and columns, the end marker always the last column, and grows by
the row and the column of whatever is stored outside of them.

* `Table`, `Entry` — the data;
* `Table.ofFrame` — an empty table with given rows and columns;
* `Table.get?`, `Table.put` — looking up and storing;
* `Table.exchange` — storing, and what was there before;
* `Table.filled`, `Table.texts` — all entries, and their displayed forms;
* `get?_put`, `getLast?_columns_put` — what storing does to cells and columns.
-/
namespace PredictiveParsing

/-- What a cell may hold. -/
inductive Entry where
  | production (p : Production)
  | errorFunction (f : ErrorFunction)
  deriving DecidableEq, Repr, Inhabited

namespace Entry

/-- The displayed form. -/
def text : Entry → String
  | production p => p.text
  | errorFunction f => f.text

/-- The production of an entry that is one. -/
def production? : Entry → Option Production
  | production p => some p
  | errorFunction _ => none

end Entry

/-- A predictive table, with the error functions known to it and the problems
met while it was filled. -/
structure Table where
  rows : List String
  columns : List String
  cells : OrderedMap (String × String) Entry := []
  errorFunctions : OrderedMap String ErrorFunction := []
  /-- Conflicts: cells that two productions were entered in. -/
  conflicts : List Diagnostic := []
  /-- Error functions that were not accepted or not placed. -/
  issues : List Diagnostic := []
  deriving Repr, Inhabited

namespace Table

/-- An empty table; the end marker becomes its last column. -/
def ofFrame (rows columns : List String) : Table :=
  { rows, columns := columns.filter (· ≠ endName) ++ [endName] }

/-- What a cell holds. -/
def get? (t : Table) (row column : String) : Option Entry :=
  OrderedMap.get? (row, column) t.cells

/-- The production a cell holds. -/
def production? (t : Table) (row column : String) : Option Production :=
  (t.get? row column).bind Entry.production?

/-- Whether the table has a cell. -/
def hasCell (t : Table) (row column : String) : Bool :=
  row ∈ t.rows && column ∈ t.columns

/-- The rows with one more. -/
def withRow (row : String) (rows : List String) : List String :=
  if row ∈ rows then rows else rows ++ [row]

/-- The columns with one more, before the last. -/
def withColumn (column : String) (columns : List String) : List String :=
  if column ∈ columns then columns
  else columns.dropLast ++ column :: columns.getLast?.toList

/-- Stores an entry; a row or column the table does not have is added. -/
def put (row column : String) (e : Entry) (t : Table) : Table :=
  { t with
    rows := withRow row t.rows
    columns := withColumn column t.columns
    cells := OrderedMap.put (row, column) e t.cells }

/-- Stores an entry and returns what it replaces.  The row and the column are
taken in before the cell is looked at. -/
def exchange (row column : String) (e : Entry) (t : Table) : Option Entry × Table :=
  let opened : Table :=
    { t with rows := withRow row t.rows, columns := withColumn column t.columns }
  (opened.get? row column, { opened with cells := OrderedMap.put (row, column) e opened.cells })

/-- The entries of a row, by column. -/
def filledRow (t : Table) (row : String) : List (String × String × Entry) :=
  t.columns.filterMap fun column => (t.get? row column).map fun e => (row, column, e)

/-- All entries, by row and column. -/
def filled (t : Table) : List (String × String × Entry) :=
  t.rows.flatMap t.filledRow

/-- Whether there are no conflicts. -/
def isConflictFree (t : Table) : Bool :=
  t.conflicts.isEmpty

/-- The displayed form of an entry in a table; productions have their number in
front if a grammar that lists them is given. -/
def entryText (g : Option Grammar) : Entry → String
  | .errorFunction f => f.identifier
  | .production p =>
    match g with
    | none => p.text
    | some g =>
      match g.numberOf p with
      | .ok n => toString n ++ ". " ++ p.text
      | .error _ => p.text

/-- The displayed forms of the cells of a row. -/
def rowTexts (t : Table) (g : Option Grammar) (row : String) : List (String × String) :=
  t.columns.map fun column => (column, ((t.get? row column).map (entryText g)).getD "")

/-- The displayed forms of all cells, by row and column. -/
def texts (t : Table) (g : Option Grammar) : OrderedMap String (List (String × String)) :=
  OrderedMap.ofList (t.rows.map fun row => (row, t.rowTexts g row))

/-! ### What storing does -/

@[simp] theorem get?_put_self (row column : String) (e : Entry) (t : Table) :
    (t.put row column e).get? row column = some e :=
  OrderedMap.get?_put_self _ _ _

theorem get?_put_of_ne {row column row' column' : String}
    (h : (row', column') ≠ (row, column)) (e : Entry) (t : Table) :
    (t.put row column e).get? row' column' = t.get? row' column' :=
  OrderedMap.get?_put_of_ne h _ _

/-- Storing changes one cell. -/
theorem get?_put (row column : String) (e : Entry) (t : Table) (row' column' : String) :
    (t.put row column e).get? row' column' =
      if (row, column) = (row', column') then some e else t.get? row' column' := by
  split
  · next h =>
    cases h
    exact get?_put_self _ _ _ _
  · next h => exact get?_put_of_ne (Ne.symm h) _ _

/-- Taking in a row and a column changes no cell. -/
@[simp] theorem exchange_fst (row column : String) (e : Entry) (t : Table) :
    (t.exchange row column e).1 = t.get? row column := rfl

/-- Nothing but what is returned tells the two ways of storing apart. -/
@[simp] theorem exchange_snd (row column : String) (e : Entry) (t : Table) :
    (t.exchange row column e).2 = t.put row column e := rfl

/-- Storing keeps the last column. -/
theorem getLast?_columns_put (row column : String) (e : Entry) {t : Table}
    (h : t.columns ≠ []) : (t.put row column e).columns.getLast? = t.columns.getLast? := by
  obtain ⟨front, last, hc⟩ : ∃ front last, t.columns = front ++ [last] :=
    ⟨_, _, (List.dropLast_concat_getLast h).symm⟩
  simp only [put, withColumn, hc]
  split <;> simp

end Table

end PredictiveParsing
