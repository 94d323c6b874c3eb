import PredictiveParsing.Table

/-
The predictive pushdown machine.

The machine has a stack and an input, both ended by the end marker.  It
matches a terminal on the stack with the one in front of the input, replaces
a non-terminal as the table says, lets an error function interfere, and stops
by accepting or rejecting.  Every step can be taken back.

* `Configuration` — stack, input and number of steps taken;
* `Status`, `Verdict` — how far a machine has come, and what stops it;
* `Move`, `Move.next` — what one step does to stack and input;
* `Simulation`, `Simulation.start` — a machine with its table and its past;
* `step`, `stepBack`, `rewind`, `run` — the operations on it;
* `decide_cases` — everything that one step can do;
* `steps_step`, `stepBack_step` — counting, and taking back.

Design notes:

* Stacks are lists with the top first; they are displayed with the bottom
  first.
* Taking back restores a configuration from before a step; it never computes
  an inverse.  A machine that was taken back counts as running.
* A machine keeps its status and the message of its rejection apart.  A step
  sets the status to running and touches the message only with a verdict.
* An error function may feed the machine for ever.  A run without a ceiling
  is therefore a partial function: it has no result if the machine never stops.
-/
namespace PredictiveParsing

/-- Stack, input, and the number of steps that led there. -/
structure Configuration where
  /-- The top first, the end marker last. -/
  stack : List String
  /-- The lookahead first, the end marker last. -/
  input : List String
  steps : Nat
  deriving DecidableEq, Repr, Inhabited

namespace Configuration

/-- The stack as it is displayed, bottom first. -/
def stackText (c : Configuration) : String :=
  Text.join " " c.stack.reverse

/-- The input as it is displayed. -/
def inputText (c : Configuration) : String :=
  Text.join " " c.input

end Configuration

/-- How far a machine has come. -/
inductive Status where
  | notStarted
  | running
  | accepted
  | rejected
  deriving DecidableEq, Repr, Inhabited

namespace Status

/-- The word a status is displayed by. -/
def label : Status → String
  | notStarted => "not-started"
  | running => "running"
  | accepted => "accepted"
  | rejected => "rejected"

/-- Whether the machine has stopped. -/
def isFinal : Status → Bool
  | accepted | rejected => true
  | _ => false

end Status

/-- What stops a machine. -/
structure Verdict where
  status : Status
  /-- Why the input is rejected, if it is. -/
  message : Option String
  deriving DecidableEq, Repr

/-- What one step does. -/
structure Move where
  stack : List String
  input : List String
  /-- The verdict, if the step stops the machine. -/
  verdict : Option Verdict := none
  /-- What is displayed for the step. -/
  action : String
  /-- The production that was applied, if one was. -/
  production : Option Production := none
  /-- The error function that was called, if one was. -/
  errorFunction : Option ErrorFunction := none
  deriving Repr

namespace Move

/-- The status after the step. -/
def status (m : Move) : Status :=
  match m.verdict with
  | some v => v.status
  | none => .running

/-- The message after the step, given the one before it. -/
def message (before : Option String) (m : Move) : Option String :=
  match m.verdict with
  | some v => v.message
  | none => before

/-- What an error function does with the top of the stack and the lookahead. -/
def recover (f : ErrorFunction) (top : String) (below : List String)
    (ahead : String) (later : List String) : Move :=
  let done (stack input : List String) (verdict : Option Verdict := none) : Move :=
    { stack, input, verdict, action := f.text, errorFunction := some f }
  let stack := top :: below
  let input := ahead :: later
  match f.action with
  | .terminateAnalysis => done stack input (some ⟨.rejected, some f.describe⟩)
  | .deleteInput =>
    if ahead = endName then
      let message := f.identifier ++ ": cannot delete the end of input"
      done stack input (some ⟨.rejected, some message⟩)
    else done stack later
  | .insertInput => done stack (f.symbolText :: input)
  | .modifyInput =>
    if ahead = endName then done stack (f.symbolText :: input)
    else done stack (f.symbolText :: later)
  | .insertStack => done (f.symbolText :: stack) input
  | .deleteStack => done below input
  | .modifyStack => done (f.symbolText :: below) input

/-- What the machine does with the top of the stack and the lookahead. -/
def decide (g : Grammar) (t : Table) (top : String) (below : List String)
    (ahead : String) (later : List String) : Move :=
  let stack := top :: below
  let input := ahead :: later
  if top = endName ∧ ahead = endName then
    { stack, input, verdict := some ⟨.accepted, none⟩, action := "Accept" }
  else if g.isNonTerminal top then
    match t.get? top ahead with
    | none =>
      let message := "No rule for M[" ++ top ++ ", " ++ ahead ++ "]"
      { stack, input, verdict := some ⟨.rejected, some message⟩, action := "Error" }
    | some (.production p) =>
      { stack := p.yield.map Symbol.name ++ below, input, action := p.text,
        production := some p }
    | some (.errorFunction f) => recover f top below ahead later
  else if top = ahead then { stack := below, input := later, action := "Match" }
  else
    let message := "Mismatch: expected '" ++ top ++ "' but found '" ++ ahead ++ "'"
    { stack, input, verdict := some ⟨.rejected, some message⟩, action := "Error" }

/-- What the machine does next.  Neither stack nor input is ever empty; were
one of them, the machine would reject. -/
def next (g : Grammar) (t : Table) (c : Configuration) : Move :=
  match c.stack, c.input with
  | top :: below, ahead :: later => decide g t top below ahead later
  | stack, input => { stack, input, verdict := some ⟨.rejected, some ""⟩, action := "Error" }

/-- Everything the machine can do: accept, reject, apply a production, call an
error function, or match. -/
theorem decide_cases (g : Grammar) (t : Table) (top : String) (below : List String)
    (ahead : String) (later : List String) :
    (top = endName ∧ ahead = endName ∧ decide g t top below ahead later =
      { stack := top :: below, input := ahead :: later, verdict := some ⟨.accepted, none⟩,
        action := "Accept" }) ∨
    (∃ message, decide g t top below ahead later =
      { stack := top :: below, input := ahead :: later,
        verdict := some ⟨.rejected, some message⟩, action := "Error" }) ∨
    (∃ p, top ∈ g.nonTerminals ∧ t.get? top ahead = some (.production p) ∧
      decide g t top below ahead later =
        { stack := p.yield.map Symbol.name ++ below, input := ahead :: later, action := p.text,
          production := some p }) ∨
    (∃ f, top ∈ g.nonTerminals ∧ t.get? top ahead = some (.errorFunction f) ∧
      decide g t top below ahead later = recover f top below ahead later) ∨
    (top = ahead ∧ top ≠ endName ∧ top ∉ g.nonTerminals ∧ decide g t top below ahead later =
      { stack := below, input := later, action := "Match" }) := by
  by_cases hend : top = endName ∧ ahead = endName
  · exact .inl ⟨hend.1, hend.2, by simp [decide, hend]⟩
  · by_cases hn : top ∈ g.nonTerminals
    · have hnt : g.isNonTerminal top = true := by simpa [Grammar.isNonTerminal] using hn
      right
      cases he : t.get? top ahead with
      | none =>
        exact .inl ⟨"No rule for M[" ++ top ++ ", " ++ ahead ++ "]", by
          simp only [decide, if_neg hend, hnt, he, if_true]⟩
      | some e =>
        cases e with
        | production p =>
          exact .inr (.inl ⟨p, hn, rfl, by simp only [decide, if_neg hend, hnt, he, if_true]⟩)
        | errorFunction f =>
          exact .inr (.inr (.inl ⟨f, hn, rfl, by
            simp only [decide, if_neg hend, hnt, he, if_true]⟩))
    · have hnt : g.isNonTerminal top = false := by simpa [Grammar.isNonTerminal] using hn
      by_cases heq : top = ahead
      · refine .inr (.inr (.inr (.inr ⟨heq, fun h => hend ⟨h, heq ▸ h⟩, hn, ?_⟩)))
        simp only [decide, if_neg hend, hnt, if_pos heq]
        rfl
      · refine .inr (.inl ⟨"Mismatch: expected '" ++ top ++ "' but found '" ++ ahead ++ "'", ?_⟩)
        simp only [decide, if_neg hend, hnt, if_neg heq]
        rfl

end Move

/-- One step as it is displayed: its number, the state after it and what was
done. -/
structure Record where
  step : Nat
  stack : String
  input : String
  action : String
  production : Option Production
  errorFunction : Option ErrorFunction
  deriving DecidableEq, Repr

/-- A machine with its grammar and table, where it stands, and its past. -/
structure Simulation where
  grammar : Grammar
  table : Table
  /-- Where the machine began. -/
  initial : Configuration
  current : Configuration
  status : Status := .notStarted
  /-- Why the input was rejected, if it was. -/
  message : Option String := none
  /-- The configurations before each step, the latest first. -/
  undo : List Configuration := []
  /-- The steps taken, the latest first. -/
  records : List Record := []
  deriving Repr

namespace Simulation

/-! ### Starting -/

/-- Whether a token may stand in the input. -/
def admits (g : Grammar) (token : String) : Except Fault Unit :=
  if token ∈ reserved then .error (.reservedToken token)
  else if g.isNonTerminal token then .error (.nonTerminalToken token)
  else .ok ()

/-- A machine before its first step; empty tokens are dropped. -/
def start (g : Grammar) (t : Table) (tokens : List String) : Except Fault Simulation :=
  match g.start with
  | none => .error .noStartSymbol
  | some s => do
    let tokens := tokens.filter (· ≠ "")
    tokens.forM (admits g)
    let initial := { stack := [s, endName], input := tokens ++ [endName], steps := 0 }
    return { grammar := g, table := t, initial, current := initial }

/-! ### Views -/

/-- Whether the machine has stopped. -/
def isFinished (s : Simulation) : Bool :=
  s.status.isFinal

/-- Whether the machine has accepted. -/
def isAccepted (s : Simulation) : Bool :=
  s.status = .accepted

/-- The steps taken, in order. -/
def history (s : Simulation) : List Record :=
  s.records.reverse

/-! ### Forward -/

/-- The machine stopped by a verdict. -/
def finish (v : Verdict) (s : Simulation) : Simulation :=
  { s with status := v.status, message := v.message }

/-- Takes one step, unless the machine has stopped, and hands back its
record. -/
def step (s : Simulation) : Option Record × Simulation :=
  if s.isFinished then (none, s)
  else
    let begun := { s with status := .running, undo := s.current :: s.undo }
    let move := Move.next s.grammar s.table s.current
    let judged := match move.verdict with
      | some v => begun.finish v
      | none => begun
    let current := ⟨move.stack, move.input, s.current.steps + 1⟩
    let record : Record :=
      { step := current.steps, stack := current.stackText, input := current.inputText,
        action := move.action, production := move.production,
        errorFunction := move.errorFunction }
    (some record, { judged with current, records := record :: s.records })

/-- At most so many steps, up to the one that stops the machine. -/
def advance : (steps : Nat) → Simulation → Simulation
  | 0, s => s
  | n + 1, s => if s.isFinished then s else advance n s.step.2

/-- Runs until the machine stops; there is no result if it never does. -/
def runToEnd (s : Simulation) : Option Simulation :=
  if s.isFinished then some s
  else s.step.2 |>.runToEnd
partial_fixpoint

/-- Runs until the machine stops or has taken as many steps as the ceiling
says; none at all if that is below zero. -/
def runWithin (ceiling : Int) (s : Simulation) : Simulation :=
  s.advance ceiling.toNat

/-- Runs until the machine stops or the ceiling, if there is one, is reached,
and hands back the records of the steps taken. -/
def run (ceiling : Option Int) (s : Simulation) : Option (List Record × Simulation) :=
  let ran := match ceiling with
    | none => s.runToEnd
    | some ceiling => some (s.runWithin ceiling)
  ran.map fun after => (after.history.drop s.records.length, after)

/-! ### Backward -/

/-- The machine in an earlier configuration. -/
def restore (c : Configuration) (s : Simulation) : Simulation :=
  { s with current := c, status := .running, message := none }

/-- Takes the last step back; says whether there was one. -/
def stepBack (s : Simulation) : Bool × Simulation :=
  match s.undo with
  | [] => (false, s)
  | c :: undo => (true, { s.restore c with undo, records := s.records.tail })

/-- Takes all steps back; says whether there were any. -/
def rewind (s : Simulation) : Bool × Simulation :=
  match s.undo with
  | [] => (false, s)
  | _ => (true, { s.restore s.initial with undo := [], records := [] })

/-! ### Counting, and taking back -/

/-- What a step does to a machine that has not stopped. -/
theorem step_of_not_isFinished {s : Simulation} (h : s.isFinished = false) :
    s.step.2 =
      let move := Move.next s.grammar s.table s.current
      let current : Configuration := ⟨move.stack, move.input, s.current.steps + 1⟩
      { s with
        current, status := move.status, message := move.message s.message
        undo := s.current :: s.undo
        records := ⟨s.current.steps + 1, current.stackText, current.inputText, move.action,
          move.production, move.errorFunction⟩ :: s.records } := by
  rw [step, if_neg (by simp [h])]
  cases hv : (Move.next s.grammar s.table s.current).verdict with
  | none => simp only [Move.status, Move.message, hv]
  | some v => simp only [finish, Move.status, Move.message, hv]

theorem steps_step {s : Simulation} (h : s.isFinished = false) :
    s.step.2.current.steps = s.current.steps + 1 := by
  rw [step_of_not_isFinished h]

/-- Taking a step back restores where the machine stood. -/
theorem stepBack_step {s : Simulation} (h : s.isFinished = false) :
    s.step.2.stepBack = (true, { s with status := .running, message := none }) := by
  rw [step_of_not_isFinished h]
  rfl

end Simulation

end PredictiveParsing
