import Mathlib.Data.List.Basic
import PredictiveParsing.Proofs.Grammar.Reachable
import PredictiveParsing.Proofs.Simulation.Replay

/-
What is always true of a machine.

A machine is told to step, to take steps back, to rewind and to run, and its
grammar is worked on in between.  Whatever its table holds and its error
functions do, stack and input keep the end marker at their end, and counter,
history and undo list go together.

* `Event`, `undergoAll` — commands and operations on the grammar, in any order;
* `Configuration.IsEnded` — stack and input have the end marker at their end;
* `isEnded_next` — no move takes it away;
* `Intact` — what is always true of a machine;
* `Intact.step`, `Intact.undergo` — no event changes that;
* `undergoAll_intact` — so it is true after all of them.

Design notes:

* Nothing is asked of table and productions.  All that counts is that the end
  marker is no non-terminal: a move takes a name off the stack only if it is a
  non-terminal or equal to a lookahead that is not the end marker.
* Undoing restores what was saved, so the saved configurations have to satisfy
  whatever the present one does.
* Status and message are set apart from each other: a step sets the status
  without a look at the message.  They agree because a machine with a message
  takes no step before it was taken back.
-/
namespace PredictiveParsing

/-- What can happen to a machine: a command, or an operation on its grammar,
with which it then goes on. -/
inductive Event where
  | command (c : Command)
  | operation (o : Operation)

/-- Stack and input have the end marker at their end. -/
structure Configuration.IsEnded (c : Configuration) : Prop where
  stack : c.stack.getLast? = some endName
  input : c.input.getLast? = some endName

/-! ### Moves -/

namespace Move

variable {g : Grammar} {ahead : String} {below later : List String}

theorem getLast?_of_cons_ne {n m : String} {ns : List String}
    (h : (n :: ns).getLast? = some m) (hne : n ≠ m) : ns.getLast? = some m := by
  cases ns with
  | nil => exact absurd (Option.some.inj h) hne
  | cons _ _ => rwa [List.getLast?_cons_cons] at h

theorem getLast?_cons_of_some {n m : String} {ns : List String} (h : ns.getLast? = some m) :
    (n :: ns).getLast? = some m := by
  rw [List.getLast?_cons, h]
  rfl

theorem isEnded_recover (f : ErrorFunction) (top : String) (hbelow : below.getLast? = some endName)
    (hinput : (ahead :: later).getLast? = some endName) :
    (recover f top below ahead later).stack.getLast? = some endName ∧
      (recover f top below ahead later).input.getLast? = some endName := by
  have hstack : (top :: below).getLast? = some endName := getLast?_cons_of_some hbelow
  rw [recover]
  cases f.action with
  | terminateAnalysis => exact ⟨hstack, hinput⟩
  | deleteInput =>
    dsimp only
    split
    · exact ⟨hstack, hinput⟩
    · next h => exact ⟨hstack, getLast?_of_cons_ne hinput h⟩
  | insertInput => exact ⟨hstack, getLast?_cons_of_some hinput⟩
  | modifyInput =>
    dsimp only
    split
    · exact ⟨hstack, getLast?_cons_of_some hinput⟩
    · next h =>
      exact ⟨hstack,
        getLast?_cons_of_some (getLast?_of_cons_ne hinput h)⟩
  | insertStack => exact ⟨getLast?_cons_of_some hstack, hinput⟩
  | deleteStack => exact ⟨hbelow, hinput⟩
  | modifyStack => exact ⟨getLast?_cons_of_some hbelow, hinput⟩

/-- **No move takes the end markers away.** -/
theorem isEnded_next (hg : endName ∉ g.nonTerminals) (t : Table) {c : Configuration}
    (hc : c.IsEnded) (steps : Nat) :
    Configuration.IsEnded ⟨(next g t c).stack, (next g t c).input, steps⟩ := by
  obtain ⟨hstack, hinput⟩ := hc
  rw [next]
  split
  · next top below ahead later hs hi =>
    rw [hs] at hstack
    rw [hi] at hinput
    rcases decide_cases g t top below ahead later with
      ⟨-, -, hd⟩ | ⟨_, hd⟩ | ⟨p, hn, -, hd⟩ | ⟨f, hn, -, hd⟩ | ⟨heq, hne, -, hd⟩
    · rw [hd]
      exact ⟨hstack, hinput⟩
    · rw [hd]
      exact ⟨hstack, hinput⟩
    · -- A non-terminal lies above the marker.
      have hbelow := getLast?_of_cons_ne hstack fun h => hg (h ▸ hn)
      rw [hd]
      exact ⟨List.mem_getLast?_append_of_mem_getLast? hbelow, hinput⟩
    · have hbelow := getLast?_of_cons_ne hstack fun h => hg (h ▸ hn)
      obtain ⟨hs', hi'⟩ := isEnded_recover f top hbelow hinput
      rw [hd]
      exact ⟨hs', hi'⟩
    · rw [hd]
      exact ⟨getLast?_of_cons_ne hstack hne, getLast?_of_cons_ne hinput fun h => hne (heq.trans h)⟩
  · exact ⟨hstack, hinput⟩

end Move

/-- With the end markers there is always something to decide about. -/
theorem Configuration.IsEnded.exists_decide {c : Configuration} (h : c.IsEnded) (g : Grammar)
    (t : Table) : ∃ top below ahead later, c.stack = top :: below ∧ c.input = ahead :: later ∧
      Move.next g t c = Move.decide g t top below ahead later := by
  obtain ⟨hstack, hinput⟩ := h
  cases hs : c.stack with
  | nil => simp [hs] at hstack
  | cons top below =>
    cases hi : c.input with
    | nil => simp [hi] at hinput
    | cons ahead later => exact ⟨top, below, ahead, later, rfl, rfl, by rw [Move.next, hs, hi]⟩

namespace Simulation

/-! ### Events -/

/-- The machine after an event; nothing if a run never ends. -/
def undergo (s : Simulation) : Event → Option Simulation
  | .command c => s.perform c
  | .operation o => some { s with grammar := o.apply s.grammar }

def undergoAll (events : List Event) (s : Simulation) : Option Simulation :=
  events.foldlM undergo s

/-- The configurations saved so far: where the machine began, and where it
stood before each step. -/
def snapshots (s : Simulation) : List Configuration :=
  s.initial :: s.undo.reverse

/-- What is always true of a machine.  Its grammar can only hold names that can
be declared; present and saved configurations have their end markers; and what
was saved and recorded is numbered in order. -/
structure Intact (s : Simulation) : Prop where
  named : s.grammar.Named
  isEnded_initial : s.initial.IsEnded
  isEnded_current : s.current.IsEnded
  isEnded_undo : ∀ c ∈ s.undo, c.IsEnded
  steps_initial : s.initial.steps = 0
  steps_undo : s.undo.map Configuration.steps = (List.range s.current.steps).reverse
  step_records : s.records.map Record.step = (List.range' 1 s.current.steps).reverse
  records_eq_nil : s.status = .notStarted → s.records = []
  isExplained : s.IsExplained

section

variable {s r : Simulation}

theorem intact_of_start {g : Grammar} (hg : g.Named) {t : Table} {tokens : List String}
    (h : start g t tokens = .ok s) : s.Intact := by
  obtain ⟨n, -, -, rfl⟩ := start_eq_ok h
  have hended : Configuration.IsEnded ⟨[n, endName], tokens.filter (· ≠ "") ++ [endName], 0⟩ :=
    ⟨rfl, by simp⟩
  exact
    { named := hg
      isEnded_initial := hended
      isEnded_current := hended
      isEnded_undo := by simp
      steps_initial := rfl
      steps_undo := rfl
      step_records := rfl
      records_eq_nil := fun _ => rfl
      isExplained := (isFresh_of_start h).isExplained }

/-- **A step leaves a machine intact.** -/
theorem Intact.step (h : s.Intact) : s.step.2.Intact := by
  cases hf : s.isFinished with
  | true =>
    rw [step_of_isFinished hf]
    exact h
  | false =>
    have hend := h.named.nonTerminals.endName_notMem
    rw [step_of_not_isFinished hf]
    exact
      { named := h.named
        isEnded_initial := h.isEnded_initial
        isEnded_current := Move.isEnded_next hend s.table h.isEnded_current _
        isEnded_undo := List.forall_mem_cons.2 ⟨h.isEnded_current, h.isEnded_undo⟩
        steps_initial := h.steps_initial
        steps_undo := by
          rw [List.map_cons, h.steps_undo, List.range_succ, List.reverse_concat]
        step_records := by
          rw [List.map_cons, h.step_records, List.range'_1_concat, List.reverse_concat,
            Nat.add_comm]
        records_eq_nil := fun hs => absurd hs (status_next_ne _ _ _)
        isExplained := step_of_not_isFinished hf ▸ h.isExplained.step }

theorem Intact.stepped (h : s.Intact) (n : Nat) : (s.stepped n).Intact :=
  Function.Iterate.rec Intact h (fun _ hs => hs.step) n

/-- So does taking a step back: what was saved is one step younger. -/
theorem Intact.stepBack (h : s.Intact) : s.stepBack.2.Intact := by
  rw [Simulation.stepBack]
  split
  · exact h
  · next c undo hu =>
    have hundo := h.steps_undo
    have hrecords := h.step_records
    rw [hu, List.map_cons] at hundo
    have hended : ∀ d ∈ c :: undo, d.IsEnded := hu ▸ h.isEnded_undo
    cases hn : s.current.steps with
    | zero => simp [hn] at hundo
    | succ n =>
      rw [hn, List.range_succ, List.reverse_concat] at hundo
      rw [hn, List.range'_1_concat, List.reverse_concat] at hrecords
      obtain ⟨hc, hundo⟩ := List.cons.inj hundo
      exact
        { named := h.named
          isEnded_initial := h.isEnded_initial
          isEnded_current := hended c List.mem_cons_self
          isEnded_undo := fun d hd => hended d (List.mem_cons_of_mem _ hd)
          steps_initial := h.steps_initial
          steps_undo := by simpa [restore, hc] using hundo
          step_records := by
            have htail := congrArg List.tail hrecords
            simpa [restore, hc] using htail
          records_eq_nil := by simp [restore]
          isExplained := isExplained_restore c s }

theorem Intact.rewind (h : s.Intact) : s.rewind.2.Intact := by
  rw [Simulation.rewind]
  split
  · exact h
  · exact
      { named := h.named
        isEnded_initial := h.isEnded_initial
        isEnded_current := h.isEnded_initial
        isEnded_undo := by simp
        steps_initial := h.steps_initial
        steps_undo := by simp [restore, h.steps_initial]
        step_records := by simp [restore, h.steps_initial]
        records_eq_nil := fun _ => rfl
        isExplained := isExplained_restore s.initial s }

theorem Intact.perform (h : s.Intact) {c : Command} (hr : s.perform c = some r) : r.Intact := by
  cases c with
  | step =>
    cases hr
    exact h.step
  | stepBack =>
    cases hr
    exact h.stepBack
  | rewind =>
    cases hr
    exact h.rewind
  | run ceiling => exact run_induction (fun _ hs => hs.step) hr h

/-- **No event does a machine any harm.** -/
theorem Intact.undergo (h : s.Intact) {e : Event} (hr : s.undergo e = some r) : r.Intact := by
  cases e with
  | command c => exact h.perform hr
  | operation o =>
    cases hr
    exact ⟨h.named.apply o, h.isEnded_initial, h.isEnded_current, h.isEnded_undo,
      h.steps_initial, h.steps_undo, h.step_records, h.records_eq_nil, h.isExplained⟩

theorem Intact.undergoAll (h : s.Intact) {events : List Event}
    (hr : s.undergoAll events = some r) : r.Intact := by
  induction events generalizing s with
  | nil =>
    cases hr
    exact h
  | cons e events ih =>
    obtain ⟨t, ht, hr⟩ := Option.bind_eq_some_iff.1 hr
    exact ih (h.undergo ht) hr

/-! ### Counting -/

theorem Intact.length_history (h : s.Intact) : s.history.length = s.current.steps := by
  have hlen := congrArg List.length h.step_records
  simpa [history] using hlen

theorem Intact.length_snapshots (h : s.Intact) : s.snapshots.length = s.current.steps + 1 := by
  have hlen := congrArg List.length h.steps_undo
  simpa [snapshots] using hlen

/-- The steps of the history are numbered from one. -/
theorem Intact.step_getElem (h : s.Intact) (i : Nat) (hi : i < s.history.length) :
    s.history[i].step = i + 1 := by
  have hsteps : s.history.map Record.step = List.range' 1 s.current.steps := by
    rw [history, List.map_reverse, h.step_records, List.reverse_reverse]
  have hget : (s.history.map Record.step)[i]? = some (s.history[i].step) := by simp [hi]
  rw [hsteps, List.getElem?_range' (by rwa [← h.length_history])] at hget
  have := Option.some.inj hget
  omega

end

/-- **Whatever happens to a machine, its end markers stay and its counters
agree.**  Take any grammar whose vocabulary can be declared, as that of every
grammar that can be made is, any table and any events: commands to the machine,
each run among them ending, and operations on its grammar, failing ones
included.  Stack and input have the end marker at their end, so that a step
always finds something to decide about; the counter is the length of the
history, and one less than the number of configurations saved; the steps of the
history are numbered from one; a machine that has not started has no history;
and there is a message exactly if the input was rejected. -/
theorem undergoAll_intact {g : Grammar} (hg : g.Named) {t : Table} {tokens : List String}
    {s₀ s : Simulation} (hstart : start g t tokens = .ok s₀) {events : List Event}
    (h : s₀.undergoAll events = some s) :
    s.current.stack.getLast? = some endName ∧ s.current.input.getLast? = some endName ∧
      (∃ top below ahead later, s.current.stack = top :: below ∧
        s.current.input = ahead :: later ∧ Move.next s.grammar s.table s.current =
          Move.decide s.grammar s.table top below ahead later) ∧
      s.current.steps = s.history.length ∧ s.snapshots.length = s.history.length + 1 ∧
      (∀ (i : Nat) (hi : i < s.history.length), s.history[i].step = i + 1) ∧
      (s.status = .notStarted → s.history = []) ∧
      (s.message.isSome = true ↔ s.status = .rejected) := by
  have hs := (intact_of_start hg hstart).undergoAll h
  refine ⟨hs.isEnded_current.stack, hs.isEnded_current.input,
    hs.isEnded_current.exists_decide _ _, hs.length_history.symm, ?_, hs.step_getElem,
    fun hn => ?_, hs.isExplained⟩
  · rw [hs.length_snapshots, hs.length_history]
  · rw [history, hs.records_eq_nil hn]
    rfl

/-- A vocabulary that is refused half way makes the machine reject; the step is
taken back, the vocabulary put right, and an error function called twice that
puts an end marker in front of the input. -/
theorem undergoAll_intact_vocabulary :
    let items : List ProductionItem := [.sides ⟨"S", ["a", "S"]⟩, .sides ⟨"S", ["b"]⟩]
    let g : Grammar :=
      { nonTerminals := ["S"], terminals := ["a", "b"], start := some "S"
        productions := [⟨"S", .terminal "a", [.nonTerminal "S"]⟩, ⟨"S", .terminal "b", []⟩] }
    let mark : ErrorFunction := ⟨"mark", .modifyInput, some "$", none⟩
    let t := (g.buildTable [mark] [(("S", "$"), "mark")]).1
    let events : List Event := [.command .step, .command .step,
      .operation (.setVocabulary ["T"] ["$"]), .command .step, .command .stepBack,
      .operation (.setVocabulary ["S"] ["a", "b"]), .command (.run (some 2))]
    Grammar.build "" "" ["S"] ["a", "b"] items (some "S") = .ok g ∧
    ∃ s₀ s, start g t ["a"] = .ok s₀ ∧ s₀.undergoAll events = some s ∧
      s.current = ⟨["S", "$"], ["$", "$", "$"], 4⟩ ∧
      s.current.stack.getLast? = some endName ∧ s.current.input.getLast? = some endName ∧
      s.current.steps = s.history.length ∧ s.snapshots.length = s.history.length + 1 ∧
      ∀ (i : Nat) (hi : i < s.history.length), s.history[i].step = i + 1 := by
  intro items g mark t events
  have hbuild : Grammar.build "" "" ["S"] ["a", "b"] items (some "S") = .ok g := rfl
  have hg : g.Reachable := .build hbuild
  have hstart := Eq.refl (start g t ["a"])
  obtain ⟨hstack, hinput, -, hsteps, hsnapshots, hnumbers, -⟩ :=
    @undergoAll_intact g hg.named t ["a"] _ _ hstart events rfl
  exact ⟨hbuild, _, _, hstart, rfl, by decide +kernel, hstack, hinput, hsteps, hsnapshots,
    hnumbers⟩

end Simulation

end PredictiveParsing
