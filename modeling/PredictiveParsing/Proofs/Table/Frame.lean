import PredictiveParsing.Proofs.Rewriting.Adoption
import PredictiveParsing.Proofs.Sets.Solutions
import PredictiveParsing.Proofs.Table.Recovery

/-
Sets and table of a valid grammar stay within its vocabulary.

A table takes in the row and the column of whatever is stored in it.  Nothing
but the sets keeps names out of it that the grammar does not declare, and the
sets hold what the consequents hold; so all rests on the names that occur.

* `Family.IsWithin` — the sets of a family hold names of a list only;
* `Closed.begins_declared`, `Closed.follows_declared` — what a name can begin
  with and what can follow it;
* `Table.put_frame`, `Table.ofProductions_frame`, `Table.place_frame` — what is
  stored inside a table adds neither a row nor a column;
* `buildTable_within` — the sets and the table of a valid grammar.

Design notes:

* FOLLOW sets rest on FIRST sets that may be handed in.  They stay within the
  vocabulary if those do, whether or not they are the grammar's own.
* Error functions go to cells the table has, whatever cells they are meant for.
-/
namespace PredictiveParsing

/-! ### Families -/

namespace Family

/-- Every set of the family holds names of the list only. -/
def IsWithin (f : Family) (names : List String) : Prop :=
  ∀ e ∈ f, ∀ x ∈ e.2, x ∈ names

instance (f : Family) (names : List String) : Decidable (f.IsWithin names) :=
  inferInstanceAs (Decidable (∀ e ∈ f, ∀ x ∈ e.2, x ∈ names))

theorem IsWithin.of_mem {f : Family} {names : List String} (h : f.IsWithin names) {n x : String}
    (hx : x ∈ f.of n) : x ∈ names := by
  obtain ⟨e, he, hxe⟩ := List.mem_flatMap.1 (mem_flatMap_of_mem hx)
  exact h e he x hxe

/-- If no name is listed twice, the sets are those that are found. -/
theorem isWithin_of_forall {f : Family} {names : List String} (hf : (OrderedMap.keys f).Nodup)
    (h : ∀ n, ∀ x ∈ f.of n, x ∈ names) : f.IsWithin names := by
  intro e he x hx
  refine h e.1 x ?_
  rw [of, OrderedMap.get?_of_mem hf he]
  exact hx

end Family

/-! ### Names that occur -/

namespace Grammar

variable {g : Grammar} {first follow : Family}

/-- What a name can begin with is a terminal or `ε`. -/
theorem Closed.begins_declared (h : g.Closed) {n x : String} (hb : g.Begins n x) :
    x ∈ epsilonName :: g.terminals := by
  induction hb with
  | direct hp hf =>
    rcases h.symbol_cases hp List.mem_cons_self with he | ⟨m, -, he⟩ | ⟨t, ht, he⟩
    · simp [he, Symbol.name]
    · simp [he, Symbol.isNonTerminal] at hf
    · simpa [he, Symbol.name] using Or.inr ht
  | through _ _ _ ih => exact ih

/-- What can follow a name is a terminal or the end marker, for any FIRST sets
within the vocabulary. -/
theorem Closed.follows_declared (h : g.Closed) (hfirst : first.IsWithin (epsilonName :: g.terminals))
    {n x : String} (hf : g.Follows first n x) : x ∈ endName :: g.terminals := by
  induction hf with
  | start _ => exact List.mem_cons_self
  | last _ _ _ ih => exact ih
  | @terminal p before behind n x hp hc =>
    have hs : Symbol.terminal x ∈ p.consequent := by simp [hc]
    rcases h.symbol_cases hp hs with he | ⟨m, -, he⟩ | ⟨t, ht, he⟩
    · cases he
    · cases he
    · cases he
      exact List.mem_cons_of_mem _ ht
  | first _ _ hx hne =>
    have hx' := hfirst.of_mem hx
    exact List.mem_cons_of_mem _ (List.mem_of_ne_of_mem hne hx')
  | empty _ _ _ _ ih => exact ih

theorem Closed.solveFirst_within (h : g.Closed) :
    g.solveFirst.1.IsWithin (epsilonName :: g.terminals) := by
  refine Family.isWithin_of_forall ?_ fun n x hx => h.begins_declared (mem_solveFirst_iff.1 hx)
  rw [keys_solveFirst]
  exact nodup_keys_seededFirst

theorem Closed.solveFollow_within (h : g.Closed)
    (hfirst : first.IsWithin (epsilonName :: g.terminals)) :
    (g.solveFollow first).1.IsWithin (endName :: g.terminals) := by
  refine Family.isWithin_of_forall ?_ fun n x hx =>
    h.follows_declared hfirst (mem_solveFollow_iff.1 hx)
  rw [keys_solveFollow]
  exact nodup_keys_seededFollow

/-- A production selects terminals, and perhaps the end marker. -/
theorem Closed.selected_declared (h : g.Closed)
    (hfirst : first.IsWithin (epsilonName :: g.terminals))
    (hfollow : follow.IsWithin (endName :: g.terminals)) {p : Production} (hp : p ∈ g.productions)
    {column : String} (hc : column ∈ p.selected first follow) :
    column ∈ g.terminals ++ [endName] := by
  have hs : p.Selects first follow p.antecedent column := ⟨rfl, hc⟩
  rw [List.mem_append, List.mem_singleton]
  rcases (Production.selects_iff.1 hs).2 with ⟨hx, hne⟩ | ⟨-, hx⟩
  · have hx' : column ∈ epsilonName :: g.terminals := by
      rcases mem_firstSet_iff.1 hx with ⟨hf, rfl⟩ | ⟨n, -, hx⟩
      · exact h.begins_declared (.direct hp hf)
      · exact hfirst.of_mem hx
    exact .inl (List.mem_of_ne_of_mem hne hx')
  · rcases List.mem_cons.1 (hfollow.of_mem hx) with he | ht
    · exact .inr he
    · exact .inl ht

end Grammar

/-! ### Rows and columns -/

namespace Table

/-- The rows and the columns of a table. -/
def frame (t : Table) : List String × List String :=
  (t.rows, t.columns)

/-- What is stored inside a table adds neither a row nor a column. -/
theorem put_frame {t : Table} {row column : String} (hr : row ∈ t.rows) (hc : column ∈ t.columns)
    (e : Entry) : (t.put row column e).frame = t.frame := by
  simp [frame, put, withRow, withColumn, hr, hc]

theorem enter_frame {t : Table} {p : Production} {a : String} (hr : p.antecedent ∈ t.rows)
    (hc : a ∈ t.columns) : (t.enter p a).frame = t.frame := by
  have hput := put_frame hr hc (.production p)
  rw [enter]
  dsimp only [exchange_fst, exchange_snd]
  split
  · exact hput
  · split
    · exact hput
    · exact hput

/-- Entering productions in rows and columns that are there adds none. -/
theorem ofProductions_frame {g : Grammar} {first follow : Family}
    (h : ∀ p ∈ g.productions, p.antecedent ∈ g.nonTerminals ∧
      ∀ a ∈ p.selected first follow, a ∈ (ofFrame g.nonTerminals g.terminals).columns) :
    (ofProductions g first follow).frame = (ofFrame g.nonTerminals g.terminals).frame := by
  refine List.foldlRecOn (motive := fun t : Table =>
    t.frame = (ofFrame g.nonTerminals g.terminals).frame) _ _ rfl fun t ht p hp => ?_
  refine List.foldlRecOn (motive := fun t : Table =>
    t.frame = (ofFrame g.nonTerminals g.terminals).frame) _ _ ht fun t ht a ha => ?_
  obtain ⟨hrows, hcolumns⟩ := Prod.mk.inj ht
  obtain ⟨hrow, hcolumn⟩ := h p hp
  have hadded : (t.enter p a).frame = t.frame :=
    enter_frame (by rw [hrows]; exact hrow) (by rw [hcolumns]; exact hcolumn a ha)
  exact hadded.trans ht

theorem register_frame (t : Table) (f : ErrorFunction) : (t.register f).frame = t.frame := by
  rw [register]
  split
  · rfl
  · split
    · rfl
    · rfl

/-- An error function is only placed in a cell that the table has. -/
theorem place_frame (t : Table) (cell : (String × String) × String) :
    (t.place cell).frame = t.frame := by
  rcases place_cases t cell with ⟨_, -, he⟩ | ⟨_, -, -, he⟩
  · rw [he]
    rfl
  · rw [he]
    rfl

/-- Neither error functions nor the cells they are meant for add anything. -/
theorem foldl_place_frame (functions : List ErrorFunction) (cells : ErrorCells) (t : Table) :
    (cells.foldl place (functions.foldl register t)).frame = t.frame := by
  refine List.foldlRecOn (motive := fun r : Table => r.frame = t.frame) _ _ ?_
    fun r hr cell _ => (r.place_frame cell).trans hr
  exact List.foldlRecOn (motive := fun r : Table => r.frame = t.frame) _ _ rfl
    fun r hr f _ => (r.register_frame f).trans hr

end Table

namespace Grammar

variable {g : Grammar}

/-- With sets within the vocabulary, the table has the rows and columns that it
is begun with. -/
theorem Closed.buildTable_frame (h : g.Closed)
    (hfirst : g.knownSets.1.IsWithin (epsilonName :: g.terminals))
    (hfollow : g.knownSets.2.1.IsWithin (endName :: g.terminals))
    (functions : List ErrorFunction) (cells : ErrorCells) :
    (g.buildTable functions cells).1.frame = (g.nonTerminals, g.terminals ++ [endName]) := by
  have hcolumns : (Table.ofFrame g.nonTerminals g.terminals).columns = g.terminals ++ [endName] := by
    have hkept : g.terminals.filter (· ≠ endName) = g.terminals :=
      List.filter_eq_self.2 fun t ht => by simpa using h.named.terminals.ne_endName ht
    rw [Table.ofFrame, hkept]
  have hproductions : (Table.ofProductions g g.knownSets.1 g.knownSets.2.1).frame =
      (Table.ofFrame g.nonTerminals g.terminals).frame := by
    refine Table.ofProductions_frame fun p hp => ⟨h.antecedent_mem p hp, fun a ha => ?_⟩
    rw [hcolumns]
    exact h.selected_declared hfirst hfollow hp ha
  have hbuild : (g.buildTable functions cells).1 = cells.foldl Table.place
      (functions.foldl Table.register (Table.ofProductions g g.knownSets.1 g.knownSets.2.1)) := by
    rw [buildTable, knownSets_eq]
    rfl
  rw [hbuild, Table.foldl_place_frame, hproductions, Table.frame, hcolumns]
  rfl

/-- **Sets and table of a valid grammar stay within its vocabulary.**  FIRST sets
hold terminals and `ε`; FOLLOW sets hold terminals and the end marker, also those
for other FIRST sets that hold terminals and `ε`.  Whatever error functions are
to be placed where, the rows of the table are the non-terminals and its columns
are the terminals and then the end marker; and every production in a row is one
of the grammar that has the antecedent of the row. -/
theorem buildTable_within (hg : g.SoundlyReachable)
    (hvalid : Diagnostic.hasErrors g.problems = false) (functions : List ErrorFunction)
    (cells : ErrorCells) :
    g.computeFirst.1.IsWithin (epsilonName :: g.terminals) ∧
    (∀ first : Family, first.IsWithin (epsilonName :: g.terminals) →
      (g.computeFollow first).1.IsWithin (endName :: g.terminals)) ∧
    (g.knownSets.1.IsWithin (epsilonName :: g.terminals) ∧
      g.knownSets.2.1.IsWithin (endName :: g.terminals)) ∧
    (g.buildTable functions cells).1.rows = g.nonTerminals ∧
    (g.buildTable functions cells).1.columns = g.terminals ++ [endName] ∧
    ∀ row column p, (g.buildTable functions cells).1.get? row column = some (.production p) →
      p ∈ g.productions ∧ p.antecedent = row := by
  have hcoherent := hg.coherent
  have hclosed := (wellFormed_iff.1 hvalid).closed hg.reachable.named hcoherent.tagged
  have hfirst := hclosed.solveFirst_within
  have hknown : g.knownSets.1.IsWithin (epsilonName :: g.terminals) ∧
      g.knownSets.2.1.IsWithin (endName :: g.terminals) := by
    rw [hcoherent.knownSets.1, hcoherent.knownSets.2]
    exact ⟨hfirst, hclosed.solveFollow_within hfirst⟩
  obtain ⟨hrows, hcolumns⟩ := Prod.mk.inj
    (hclosed.buildTable_frame hknown.1 hknown.2 functions cells)
  refine ⟨hfirst, fun first h => hclosed.solveFollow_within h, hknown, hrows, hcolumns, ?_⟩
  intro row column p hp
  rw [production_buildTable_iff] at hp
  obtain ⟨q, hq, hs, he⟩ := Table.mem_of_get?_ofProductions hp
  cases he
  rw [knownSets_eq] at hq
  exact ⟨hq, hs.1⟩

/-- A list with an optional end and a conflict; one error function is placed, and
the others are meant for a row and a column that the table does not have. -/
theorem buildTable_within_list :
    let items : List ProductionItem := [.sides ⟨"S", ["a", "X"]⟩, .sides ⟨"S", ["a"]⟩,
      .sides ⟨"X", ["b", "X"]⟩, .sides ⟨"X", []⟩]
    let g : Grammar :=
      { nonTerminals := ["S", "X"], terminals := ["a", "b"], start := some "S"
        productions := [⟨"S", .terminal "a", [.nonTerminal "X"]⟩, ⟨"S", .terminal "a", []⟩,
          ⟨"X", .terminal "b", [.nonTerminal "X"]⟩, ⟨"X", .epsilon, []⟩] }
    let functions : List ErrorFunction :=
      [{ identifier := "e", action := .insertStack, symbol := some "c" }]
    let cells : ErrorCells := [(("S", "b"), "e"), (("Y", "b"), "e"), (("S", "c"), "e")]
    let t := (g.buildTable functions cells).1
    build "" "" ["S", "X"] ["a", "b"] items (some "S") = .ok g ∧
    Diagnostic.hasErrors g.problems = false ∧
    g.computeFirst.1.IsWithin [epsilonName, "a", "b"] ∧
    (t.rows = ["S", "X"] ∧ t.columns = ["a", "b", endName]) ∧
    t.get? "S" "b" = some (.errorFunction ⟨"e", .insertStack, some "c", none⟩) ∧
    t.conflicts.length = 1 ∧ t.issues.map (·.kind) = [.unknownCell, .unknownCell] := by
  intro items g functions cells t
  have hbuild : build "" "" ["S", "X"] ["a", "b"] items (some "S") = .ok g := rfl
  have hvalid : Diagnostic.hasErrors g.problems = false := by decide +kernel
  obtain ⟨hfirst, -, -, hrows, hcolumns, -⟩ :=
    buildTable_within (.build hbuild) hvalid functions cells
  exact ⟨hbuild, hvalid, hfirst, ⟨hrows, hcolumns⟩, by decide +kernel, by decide +kernel,
    by decide +kernel⟩

end Grammar

end PredictiveParsing
