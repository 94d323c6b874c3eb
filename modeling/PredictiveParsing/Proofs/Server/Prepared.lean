import PredictiveParsing.Proofs.Document.Faults
import PredictiveParsing.Proofs.Grammar.Reachable
import PredictiveParsing.Server

/-
The grammars that requests mean, and their sets.

A request for everything at once computes the sets of its grammar first, with
or without their passes, and its table rests on what was noted.  A request that
creates a simulation leaves that to the table.  Both come to the same sets and
the same table.

* `GrammarSource.soundlyReachable`, `prepared_soundlyReachable` — the grammars
  are made by operations, none of which fails;
* `Grammar.noted` — a grammar with its sets noted;
* `solvedSets_eq` — sets that are computed beforehand, logged or not;
* `Coherent.buildTable_noted` — the table that notes the sets;
* `buildTable_solvedSets` — it is the same table either way.
-/
namespace PredictiveParsing

namespace Grammar

variable {g : Grammar}

/-! ### Sources -/

theorem soundlyReachable_of_toGrammar {d : Document} (h : d.toGrammar = .ok g) :
    g.SoundlyReachable := by
  by_cases hd : d.IsRefused
  · rcases d.toGrammar_cases with ⟨-, he⟩ | ⟨hnot, -⟩
    · rw [he] at h
      cases h
    · exact absurd hd hnot
  · rw [Document.toGrammar_eq_build hd] at h
    exact .build h

theorem soundlyReachable_of_ofLines {start name description : String} {lines : List String}
    (h : ofLines start lines name description = .ok g) : g.SoundlyReachable := by
  rw [ofLines] at h
  cases hread : lines.mapM Line.parse with
  | error fault =>
    rw [hread] at h
    cases h
  | ok read =>
    rw [hread] at h
    exact .build h

theorem soundlyReachable_assignments : assignments.SoundlyReachable := by
  rw [assignments]
  split
  · next h => exact soundlyReachable_of_ofLines h
  · next h =>
    have hok : (ofLines "S" ["S -> id = E ;", "E -> E + T | T", "T -> T * F | F",
        "F -> ( E ) | id | num"] "Assignment" "Assignments with sums and products").toOption.isSome =
        true := by decide +kernel
    rw [h] at hok
    cases hok

/-! ### Noted sets -/

/-- The grammar with its sets noted. -/
def noted (g : Grammar) : Grammar :=
  { g with first := some g.solveFirst.1, follow := some (g.solveFollow g.solveFirst.1).1 }

/-- A table notes the sets on which it rests. -/
theorem Coherent.buildTable_noted (h : g.Coherent) (functions : List ErrorFunction)
    (cells : ErrorCells) : g.buildTable functions cells =
      (cells.foldl Table.place (functions.foldl Table.register
        (Table.ofProductions g.noted g.solveFirst.1 (g.solveFollow g.solveFirst.1).1)), g.noted) := by
  obtain ⟨hfirst, hfollow⟩ := h.knownSets
  rw [buildTable, knownSets_eq, hfollow, h.knownFirst]
  rfl

theorem coherent_noted (h : g.Coherent) : g.noted.Coherent :=
  h.note (fun _ he => (Option.some.inj he).symm) fun _ he => (Option.some.inj he).symm

end Grammar

namespace Server

open Grammar

theorem GrammarSource.soundlyReachable {source : GrammarSource} {g : Grammar}
    (h : source.grammar = .ok g) : g.SoundlyReachable := by
  rw [GrammarSource.grammar] at h
  split at h
  · exact soundlyReachable_of_toGrammar h
  · dsimp only at h
    split at h
    · exact soundlyReachable_of_ofLines h
    · obtain rfl := Except.ok.inj h
      exact soundlyReachable_assignments

/-- Validation and normalization are operations as well. -/
theorem prepared_soundlyReachable {server : Server} {source : GrammarSource} {normalizing : Bool}
    {g : Grammar} (h : server.prepared source normalizing = .ok g) : g.SoundlyReachable := by
  rw [prepared] at h
  cases hs : source.grammar with
  | error fault =>
    rw [hs] at h
    cases h
  | ok g₀ =>
    have hvalid : g₀.validate.2.SoundlyReachable :=
      .apply .validate trivial (GrammarSource.soundlyReachable hs)
    simp only [hs, bind, Except.bind] at h
    split at h
    · cases h
    · split at h
      · rw [normalized] at h
        cases hn : g₀.validate.2.normalize server.settings.onCollision with
        | error fault => simp [hn] at h
        | ok n =>
          have happly : (Operation.normalize server.settings.onCollision).apply g₀.validate.2 =
              n.grammar := by simp only [Operation.apply, hn]
          simp only [hn] at h
          obtain rfl := Except.ok.inj h
          rw [← happly]
          exact .apply (.normalize server.settings.onCollision) trivial hvalid
      · obtain rfl := Except.ok.inj h
        exact hvalid

/-- Sets that are computed beforehand are noted, logged or not. -/
theorem solvedSets_eq (withWorking : Bool) (g : Grammar) : solvedSets withWorking g =
    (⟨g.solveFirst.1, (g.solveFollow g.solveFirst.1).1,
      if withWorking then some (g.solveFirst.2, (g.solveFollow g.solveFirst.1).2) else none⟩,
      g.noted) := by
  cases withWorking <;> rfl

/-- **The table is the same whether the sets are computed beforehand or not.** -/
theorem buildTable_solvedSets {g : Grammar} (h : g.Coherent) (withWorking : Bool)
    (functions : List ErrorFunction) (cells : ErrorCells) :
    (solvedSets withWorking g).2.buildTable functions cells = g.buildTable functions cells := by
  rw [solvedSets_eq, (coherent_noted h).buildTable_noted, h.buildTable_noted]
  rfl

end Server

end PredictiveParsing
