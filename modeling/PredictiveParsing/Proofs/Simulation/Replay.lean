import Mathlib.Logic.Function.Iterate
import PredictiveParsing.Simulation

/-
Commands to a machine, and the one run that they all walk along.

`stepped n s` is the machine after `n` single steps.  Whatever commands a
machine was given, steps, undos, rewinds and runs with any ceilings, it stands
where single steps would have taken it:

* `IsExplained` — there is a message exactly if the machine has rejected, which
  no step changes;
* `runToEnd_induction` — what a step keeps, a run without a ceiling keeps;
* `runToEnd_eq_some_iff` — such a run ends exactly if some number of single
  steps leads to a machine that has stopped;
* `Replays`, `Replays.performAll` — a machine is the replay of its own steps,
  up to a status that an undo may have set to running;
* `performAll_eq_stepped` — the same, field by field.

Design notes:

* The replay is the whole machine, undo list included.  The undo list is what
  makes the induction go through: it says that the configuration an undo
  restores is the one the replay had one step earlier.
-/
namespace PredictiveParsing

/-- What a machine can be told to do. -/
inductive Command where
  | step
  | stepBack
  | rewind
  | run (ceiling : Option Int)
  deriving DecidableEq, Repr

namespace Simulation

/-- The machine after a command; nothing if a run never ends. -/
def perform (s : Simulation) : Command → Option Simulation
  | .step => some s.step.2
  | .stepBack => some s.stepBack.2
  | .rewind => some s.rewind.2
  | .run ceiling => (s.run ceiling).map (·.2)

/-- The machine after commands, one after the other. -/
def performAll (commands : List Command) (s : Simulation) : Option Simulation :=
  commands.foldlM perform s

/-- The machine after so many single steps. -/
def stepped (n : Nat) (s : Simulation) : Simulation :=
  (fun s : Simulation => s.step.2)^[n] s

/-! ### Single steps -/

@[simp] theorem stepped_zero (s : Simulation) : s.stepped 0 = s := rfl

theorem stepped_succ (n : Nat) (s : Simulation) : s.stepped (n + 1) = (s.stepped n).step.2 :=
  Function.iterate_succ_apply' _ _ _

theorem stepped_succ' (n : Nat) (s : Simulation) : s.stepped (n + 1) = s.step.2.stepped n :=
  Function.iterate_succ_apply _ _ _

/-- A machine that has stopped is left alone. -/
theorem step_of_isFinished {s : Simulation} (h : s.isFinished = true) : s.step.2 = s := by
  simp [step, h]

theorem stepped_of_isFinished {s : Simulation} (h : s.isFinished = true) (n : Nat) :
    s.stepped n = s :=
  Function.iterate_fixed (step_of_isFinished h) n

theorem advance_eq_stepped (n : Nat) (s : Simulation) : s.advance n = s.stepped n := by
  induction n generalizing s with
  | zero => rfl
  | succ n ih =>
    rw [advance]
    split
    · next h => exact (stepped_of_isFinished h _).symm
    · rw [ih, stepped_succ']

/-! ### Verdicts -/

/-- **Every verdict accepts without a message or rejects with one.** -/
theorem verdict_next {g : Grammar} {t : Table} {c : Configuration} {v : Verdict}
    (h : (Move.next g t c).verdict = some v) :
    v = ⟨.accepted, none⟩ ∨ ∃ message, v = ⟨.rejected, some message⟩ := by
  unfold Move.next at h
  split at h
  · next top below ahead later _ _ =>
    rcases Move.decide_cases g t top below ahead later with
      ⟨-, -, hd⟩ | ⟨message, hd⟩ | ⟨p, -, -, hd⟩ | ⟨f, -, -, hd⟩ | ⟨-, -, -, hd⟩
    · rw [hd] at h
      exact .inl (Option.some.inj h).symm
    · rw [hd] at h
      exact .inr ⟨message, (Option.some.inj h).symm⟩
    · rw [hd] at h
      cases h
    · -- An error function can only reject.
      rw [hd, Move.recover] at h
      split at h <;> try split at h
      all_goals first
        | exact .inr ⟨_, (Option.some.inj h).symm⟩
        | cases h
    · rw [hd] at h
      cases h
  · exact .inr ⟨_, (Option.some.inj h).symm⟩

/-- After a step a machine counts as begun. -/
theorem status_next_ne (g : Grammar) (t : Table) (c : Configuration) :
    (Move.next g t c).status ≠ .notStarted := by
  rw [Move.status]
  split
  · next v hv => rcases verdict_next hv with rfl | ⟨_, rfl⟩ <;> simp
  · simp

/-- There is a message exactly if the machine has rejected. -/
def IsExplained (s : Simulation) : Prop :=
  s.message.isSome = true ↔ s.status = .rejected

section

variable {s : Simulation}

/-- A machine that has not stopped has no message. -/
theorem IsExplained.message_eq_none (h : s.IsExplained) (hf : s.isFinished = false) :
    s.message = none := by
  rw [← Option.not_isSome_iff_eq_none]
  intro hm
  rw [isFinished, h.1 hm] at hf
  cases hf

theorem IsExplained.step (h : s.IsExplained) : s.step.2.IsExplained := by
  cases hf : s.isFinished with
  | true =>
    rw [step_of_isFinished hf]
    exact h
  | false =>
    have hnone := h.message_eq_none hf
    rw [step_of_not_isFinished hf]
    simp only [IsExplained, Move.message, Move.status]
    cases hv : (Move.next s.grammar s.table s.current).verdict with
    | none => simp [hnone]
    | some v => rcases verdict_next hv with rfl | ⟨_, rfl⟩ <;> simp

theorem IsExplained.stepped (h : s.IsExplained) (n : Nat) : (s.stepped n).IsExplained :=
  Function.Iterate.rec IsExplained h (fun _ hs => hs.step) n

/-- A machine that is taken back is running, and has no message. -/
theorem isExplained_restore (c : Configuration) (s : Simulation) : (s.restore c).IsExplained := by
  simp [IsExplained, restore]

/-- A machine with a message is one that has rejected. -/
theorem IsExplained.status_eq_rejected_iff (h : s.IsExplained) :
    s.status = .rejected ↔ ∃ message, s.status = .rejected ∧ s.message = some message := by
  constructor
  · intro hs
    obtain ⟨message, hm⟩ := Option.isSome_iff_exists.1 (h.2 hs)
    exact ⟨message, hs, hm⟩
  · rintro ⟨_, hs, -⟩
    exact hs

end

/-! ### Runs -/

/-- What a step keeps, a run that ends keeps. -/
theorem runToEnd_induction {P : Simulation → Prop} (hstep : ∀ s, P s → P s.step.2)
    {s r : Simulation} (h : s.runToEnd = some r) (hs : P s) : P r := by
  refine runToEnd.partial_correctness (fun s r => P s → P r) ?_ s r h hs
  intro runToEnd ih s r h hs
  split at h
  · cases h
    exact hs
  · exact ih _ _ h (hstep s hs)

theorem runToEnd_of_isFinished {s : Simulation} (h : s.isFinished = true) :
    s.runToEnd = some s := by
  rw [runToEnd, if_pos h]

theorem runToEnd_step (s : Simulation) : s.step.2.runToEnd = s.runToEnd := by
  cases h : s.isFinished with
  | true => rw [step_of_isFinished h]
  | false => rw [runToEnd.eq_1 s, if_neg (by simp [h])]

theorem runToEnd_stepped (n : Nat) (s : Simulation) : (s.stepped n).runToEnd = s.runToEnd := by
  induction n with
  | zero => rfl
  | succ n ih => rw [stepped_succ, runToEnd_step, ih]

/-- A run without a ceiling ends exactly where single steps lead to a machine
that has stopped. -/
theorem runToEnd_eq_some_iff {s r : Simulation} :
    s.runToEnd = some r ↔ r.isFinished = true ∧ ∃ n, s.stepped n = r := by
  constructor
  · intro h
    refine runToEnd.partial_correctness
      (fun s r => r.isFinished = true ∧ ∃ n, s.stepped n = r) ?_ s r h
    intro runToEnd ih s r h
    split at h
    · next hf =>
      cases h
      exact ⟨hf, 0, rfl⟩
    · obtain ⟨hf, n, hn⟩ := ih _ _ h
      exact ⟨hf, n + 1, by rw [stepped_succ', hn]⟩
  · rintro ⟨hf, n, rfl⟩
    rw [← runToEnd_stepped n, runToEnd_of_isFinished hf]

/-- A run with a ceiling is a number of single steps. -/
theorem runWithin_eq_stepped (ceiling : Int) (s : Simulation) :
    s.runWithin ceiling = s.stepped ceiling.toNat :=
  advance_eq_stepped _ _

/-- What a step keeps, a run keeps. -/
theorem run_induction {P : Simulation → Prop} (hstep : ∀ s, P s → P s.step.2)
    {s r : Simulation} {ceiling : Option Int} (h : (s.run ceiling).map (·.2) = some r)
    (hs : P s) : P r := by
  cases ceiling with
  | none =>
    have hr : s.runToEnd = some r := by simpa [run] using h
    exact runToEnd_induction hstep hr hs
  | some c =>
    have hr : s.stepped c.toNat = r := by
      simpa [run, runWithin_eq_stepped] using h
    rw [← hr]
    exact Function.Iterate.rec P hs hstep c.toNat

/-! ### Every machine is a replay -/

/-- The machine `s` is `s₀` after as many single steps as `s` counts, except
that an undo back to the start leaves it running. -/
structure Replays (s₀ s : Simulation) : Prop where
  eq_stepped : s = { s₀.stepped s.current.steps with status := s.status }
  status_eq : s.status = (s₀.stepped s.current.steps).status ∨
    s.current.steps = 0 ∧ s.status = .running ∧ s₀.status = .notStarted

/-- A machine before its first step. -/
structure IsFresh (s : Simulation) : Prop where
  steps_eq : s.current.steps = 0
  initial_eq : s.initial = s.current
  status_eq : s.status = .notStarted
  message_eq : s.message = none
  undo_eq : s.undo = []
  records_eq : s.records = []

theorem admits_eq_ok_iff {g : Grammar} {token : String} :
    admits g token = .ok () ↔ token ∉ reserved ∧ token ∉ g.nonTerminals := by
  rw [admits]
  by_cases hr : token ∈ reserved
  · simp [hr]
  · by_cases hn : token ∈ g.nonTerminals <;> simp [hr, hn, Grammar.isNonTerminal]

theorem admitted_of_forM {g : Grammar} {tokens : List String}
    (h : tokens.forM (admits g) = .ok ()) :
    ∀ a ∈ tokens, a ∉ reserved ∧ a ∉ g.nonTerminals := by
  induction tokens with
  | nil => simp
  | cons a as ih =>
    change (do admits g a; as.forM (admits g)) = _ at h
    cases ha : admits g a with
    | error fault => simp [ha, bind, Except.bind] at h
    | ok u =>
      rw [ha] at h
      exact List.forall_mem_cons.2 ⟨admits_eq_ok_iff.1 ha, ih h⟩

/-- Everything a machine is that could be started. -/
theorem start_eq_ok {g : Grammar} {t : Table} {tokens : List String} {s : Simulation}
    (h : start g t tokens = .ok s) :
    ∃ n, g.start = some n ∧
      (∀ a ∈ tokens.filter (· ≠ ""), a ∉ reserved ∧ a ∉ g.nonTerminals) ∧
      s = { grammar := g, table := t
            initial := ⟨[n, endName], tokens.filter (· ≠ "") ++ [endName], 0⟩
            current := ⟨[n, endName], tokens.filter (· ≠ "") ++ [endName], 0⟩ } := by
  rw [start] at h
  split at h
  · cases h
  · next n hn =>
    simp only [bind, Except.bind] at h
    split at h
    · cases h
    · next hadmitted =>
      cases h
      exact ⟨n, hn, admitted_of_forM hadmitted, rfl⟩

theorem isFresh_of_start {g : Grammar} {t : Table} {tokens : List String} {s : Simulation}
    (h : start g t tokens = .ok s) : s.IsFresh := by
  obtain ⟨n, -, -, rfl⟩ := start_eq_ok h
  exact ⟨rfl, rfl, rfl, rfl, rfl, rfl⟩

theorem IsFresh.isExplained {s : Simulation} (h : s.IsFresh) : s.IsExplained := by
  rw [IsExplained, h.message_eq, h.status_eq]
  simp

/-- Single steps change neither grammar nor table nor where the machine
began. -/
theorem step_frame (s : Simulation) : s.step.2.grammar = s.grammar ∧
    s.step.2.table = s.table ∧ s.step.2.initial = s.initial := by
  cases h : s.isFinished with
  | true => simp [step_of_isFinished h]
  | false => simp [step_of_not_isFinished h]

theorem stepped_frame (n : Nat) (s : Simulation) : (s.stepped n).grammar = s.grammar ∧
    (s.stepped n).table = s.table ∧ (s.stepped n).initial = s.initial := by
  induction n with
  | zero => exact ⟨rfl, rfl, rfl⟩
  | succ n ih =>
    obtain ⟨hg, ht, hi⟩ := step_frame (s.stepped n)
    rw [stepped_succ, hg, ht, hi]
    exact ih

theorem steps_stepped_le (n : Nat) (s : Simulation) :
    (s.stepped n).current.steps ≤ s.current.steps + n := by
  induction n with
  | zero => exact Nat.le_refl _
  | succ n ih =>
    rw [stepped_succ]
    cases h : (s.stepped n).isFinished with
    | true =>
      rw [step_of_isFinished h]
      omega
    | false =>
      rw [steps_step h]
      omega

/-- Where the counter has kept up with the steps, none of them found the
machine stopped. -/
theorem not_isFinished_of_steps_eq {n : Nat} {s : Simulation}
    (h : (s.stepped (n + 1)).current.steps = s.current.steps + (n + 1)) :
    (s.stepped n).isFinished = false ∧ (s.stepped n).current.steps = s.current.steps + n := by
  have hle := steps_stepped_le n s
  rw [stepped_succ] at h
  cases hf : (s.stepped n).isFinished with
  | true =>
    rw [step_of_isFinished hf] at h
    omega
  | false =>
    rw [steps_step hf] at h
    exact ⟨rfl, by omega⟩

/-- A machine that has taken a step and has not stopped is running. -/
theorem status_stepped {n : Nat} {s : Simulation}
    (h : (s.stepped (n + 1)).current.steps = s.current.steps + (n + 1))
    (hf : (s.stepped (n + 1)).isFinished = false) : (s.stepped (n + 1)).status = .running := by
  have hs := step_of_not_isFinished (not_isFinished_of_steps_eq h).1
  rw [← stepped_succ] at hs
  have hne : (s.stepped (n + 1)).status ≠ .notStarted := by
    rw [hs]
    exact status_next_ne _ _ _
  rw [isFinished] at hf
  cases hst : (s.stepped (n + 1)).status with
  | notStarted => exact absurd hst hne
  | running => rfl
  | accepted => simp [hst, Status.isFinal] at hf
  | rejected => simp [hst, Status.isFinal] at hf

/-- A step looks at the status only to see whether the machine has stopped. -/
theorem step_with_status {s : Simulation} {st : Status} (hs : s.isFinished = false)
    (hst : st.isFinal = false) : ({ s with status := st } : Simulation).step.2 = s.step.2 := by
  have h : ({ s with status := st } : Simulation).isFinished = false := hst
  rw [step_of_not_isFinished h, step_of_not_isFinished hs]

section

variable {s₀ s : Simulation}

theorem replays_self (h₀ : s₀.IsFresh) : Replays s₀ s₀ :=
  ⟨by rw [h₀.steps_eq]; rfl, .inl (by rw [h₀.steps_eq]; rfl)⟩

/-- A machine whose status is that of its replay is its replay. -/
theorem Replays.eq_of_status (h : Replays s₀ s)
    (hst : s.status = (s₀.stepped s.current.steps).status) :
    s = s₀.stepped s.current.steps :=
  h.eq_stepped.trans (by rw [hst])

/-- The status apart, a machine is its replay. -/
theorem Replays.fields_eq (h : Replays s₀ s) :
    s.grammar = (s₀.stepped s.current.steps).grammar ∧
      s.current = (s₀.stepped s.current.steps).current ∧
      s.records = (s₀.stepped s.current.steps).records ∧
      s.message = (s₀.stepped s.current.steps).message := by
  have hg := congrArg grammar h.eq_stepped
  have hc := congrArg current h.eq_stepped
  have hr := congrArg records h.eq_stepped
  have hm := congrArg message h.eq_stepped
  exact ⟨hg, hc, hr, hm⟩

theorem Replays.step (h : Replays s₀ s) : Replays s₀ s.step.2 := by
  have hnext : s.isFinished = false → s.step.2 = s₀.stepped (s.current.steps + 1) := by
    intro hf
    rcases h.status_eq with hst | ⟨hn, hrun, hbegun⟩
    · rw [stepped_succ, ← h.eq_of_status hst]
    · -- The machine was taken back to the start, and runs where the replay has not begun.
      have hs : s = { s₀ with status := .running } :=
        h.eq_stepped.trans (by rw [hn, hrun, stepped_zero])
      have hf₀ : s₀.isFinished = false := by rw [isFinished, hbegun]; rfl
      rw [hn, stepped_succ, stepped_zero, hs, step_with_status hf₀ rfl]
  cases hf : s.isFinished with
  | true =>
    rw [step_of_isFinished hf]
    exact h
  | false =>
    have hsteps : s.step.2.current.steps = s.current.steps + 1 := steps_step hf
    have heq := hnext hf
    exact ⟨by rw [hsteps, ← heq], .inl (by rw [hsteps, ← heq])⟩

/-- What the undo list of a replay says: before each step the machine stood
where the replay stood one step earlier. -/
theorem Replays.undo_eq (h₀ : s₀.IsFresh) (h : Replays s₀ s) {c : Configuration}
    {undo : List Configuration} (hu : s.undo = c :: undo) :
    ∃ n, s.current.steps = n + 1 ∧ c = (s₀.stepped n).current ∧ c.steps = n ∧
      undo = (s₀.stepped n).undo ∧ s.records.tail = (s₀.stepped n).records ∧
      (s₀.stepped n).isFinished = false := by
  have hs := h.eq_stepped
  have hsteps : s.current.steps = (s₀.stepped s.current.steps).current.steps :=
    congrArg (·.current.steps) hs
  cases hn : s.current.steps with
  | zero =>
    rw [hn, stepped_zero] at hs
    rw [hs] at hu
    simp [h₀.undo_eq] at hu
  | succ n =>
    rw [hn] at hs hsteps
    have hcount : (s₀.stepped (n + 1)).current.steps = s₀.current.steps + (n + 1) := by
      rw [h₀.steps_eq]
      omega
    -- The counter has reached `n + 1`, so the replay had not stopped one step before.
    obtain ⟨hf, hc⟩ := not_isFinished_of_steps_eq hcount
    have hstep := step_of_not_isFinished hf
    rw [← stepped_succ] at hstep
    rw [hs, hstep] at hu
    obtain ⟨rfl, rfl⟩ : (s₀.stepped n).current = c ∧ (s₀.stepped n).undo = undo := by
      simpa using hu
    refine ⟨n, rfl, rfl, by rw [hc, h₀.steps_eq]; omega, rfl, ?_, hf⟩
    rw [hs, hstep]
    rfl

theorem Replays.stepBack (h₀ : s₀.IsFresh) (h : Replays s₀ s) : Replays s₀ s.stepBack.2 := by
  rw [Simulation.stepBack]
  split
  · exact h
  · next c undo hu =>
    obtain ⟨n, hn, hc, hcn, hundo, hrec, hf⟩ := h.undo_eq h₀ hu
    have hframe : s.grammar = s₀.grammar ∧ s.table = s₀.table ∧ s.initial = s₀.initial := by
      have hs := stepped_frame s.current.steps s₀
      rw [h.eq_stepped]
      exact hs
    obtain ⟨hg, ht, hi⟩ := hframe
    obtain ⟨hg', ht', hi'⟩ := stepped_frame n s₀
    -- One step earlier the replay had not stopped, so it had no message.
    have hnone := (h₀.isExplained.stepped n).message_eq_none hf
    constructor
    · simp only [restore, hcn]
      rw [hrec, hundo, hc, hg, ht, hi, ← hg', ← ht', ← hi', ← hnone]
    · simp only [restore, hcn]
      cases n with
      -- At the start the replay has not begun; later on it is running as well.
      | zero => exact .inr ⟨rfl, trivial, h₀.status_eq⟩
      | succ m =>
        left
        refine (status_stepped ?_ hf).symm
        rw [← hc, hcn, h₀.steps_eq]
        omega

theorem Replays.rewind (h₀ : s₀.IsFresh) (h : Replays s₀ s) : Replays s₀ s.rewind.2 := by
  rw [Simulation.rewind]
  split
  · exact h
  · obtain ⟨hg, ht, hi⟩ := stepped_frame s.current.steps s₀
    have hs := h.eq_stepped
    have hsteps : s₀.initial.steps = 0 := by rw [h₀.initial_eq, h₀.steps_eq]
    have hinit : s.initial = s₀.initial := by rw [hs]; exact hi
    constructor
    · simp only [restore, hinit, hsteps, stepped_zero]
      rw [hs]
      simp only [hg, ht, h₀.initial_eq, ← h₀.undo_eq, ← h₀.records_eq, ← h₀.message_eq]
    · right
      simp only [restore, hinit, hsteps]
      exact ⟨trivial, trivial, h₀.status_eq⟩

/-- No command leaves the line of single steps. -/
theorem Replays.perform (h₀ : s₀.IsFresh) (h : Replays s₀ s) {c : Command} {r : Simulation}
    (hr : s.perform c = some r) : Replays s₀ r := by
  cases c with
  | step =>
    cases hr
    exact h.step
  | stepBack =>
    cases hr
    exact h.stepBack h₀
  | rewind =>
    cases hr
    exact h.rewind h₀
  | run ceiling => exact run_induction (fun _ hs => hs.step) hr h

theorem Replays.performAll (h₀ : s₀.IsFresh) (h : Replays s₀ s) {commands : List Command}
    {r : Simulation} (hr : s.performAll commands = some r) : Replays s₀ r := by
  induction commands generalizing s with
  | nil =>
    cases hr
    exact h
  | cons c commands ih =>
    obtain ⟨t, ht, hr⟩ := Option.bind_eq_some_iff.1 hr
    exact ih (h.perform h₀ ht) hr

end

/-- Whatever its commands, a machine keeps its grammar and has the configuration
and the records of its replay. -/
theorem performAll_fields {g : Grammar} {t : Table} {tokens : List String}
    {s₀ s : Simulation} (hstart : start g t tokens = .ok s₀) {commands : List Command}
    (h : s₀.performAll commands = some s) : s.grammar = g ∧
      s.current = (s₀.stepped s.current.steps).current ∧
      s.records = (s₀.stepped s.current.steps).records := by
  have h₀ := isFresh_of_start hstart
  obtain ⟨hgrammar, hcurrent, hrecords, -⟩ := ((replays_self h₀).performAll h₀ h).fields_eq
  refine ⟨?_, hcurrent, hrecords⟩
  rw [hgrammar, (stepped_frame _ s₀).1]
  obtain ⟨_, -, -, rfl⟩ := start_eq_ok hstart
  rfl

/-- **Undos and runs in chunks come to single steps.**  Whatever commands a
machine was given since it was started, each run among them ending, its stack,
input, counter, history and message are those of a machine that was started
alike and took as many single steps as the counter says.  So is its status,
except that it may be running where the other has not begun. -/
theorem performAll_eq_stepped {g : Grammar} {t : Table} {tokens : List String}
    {s₀ s : Simulation} (hstart : start g t tokens = .ok s₀) (commands : List Command)
    (h : s₀.performAll commands = some s) :
    s.current = (s₀.stepped s.current.steps).current ∧
      s.history = (s₀.stepped s.current.steps).history ∧
      s.message = (s₀.stepped s.current.steps).message ∧
      (s.status = (s₀.stepped s.current.steps).status ∨
        s.current.steps = 0 ∧ s.status = .running ∧
          (s₀.stepped s.current.steps).status = .notStarted) := by
  have h₀ := isFresh_of_start hstart
  have hr := (replays_self h₀).performAll h₀ h
  obtain ⟨-, hcurrent, hrecords, hmessage⟩ := hr.fields_eq
  refine ⟨hcurrent, congrArg List.reverse hrecords, hmessage, ?_⟩
  rcases hr.status_eq with hst | ⟨hn, hrun, hbegun⟩
  · exact .inl hst
  · exact .inr ⟨hn, hrun, by rw [hn]; exact hbegun⟩

/-- Undos and a rewind between chunks of a run with one production and one
error function. -/
theorem performAll_eq_stepped_mixed :
    let g : Grammar := { nonTerminals := ["S"], terminals := ["a"], start := some "S" }
    let repair : ErrorFunction := ⟨"skip", .deleteInput, none, none⟩
    let t := ((Table.ofFrame ["S"] ["a", "b"]).put "S" "a" (.production ⟨"S", .terminal "a", []⟩)).put
      "S" "b" (.errorFunction repair)
    let commands : List Command := [.run (some 2), .stepBack, .rewind, .stepBack, .run (some 1),
      .step, .run (some (-1)), .step, .stepBack]
    ∃ s₀ s, start g t ["b", "", "a"] = .ok s₀ ∧ s₀.performAll commands = some s ∧
      s.current = ⟨["a", "$"], ["a", "$"], 2⟩ ∧
      (s.current = (s₀.stepped s.current.steps).current ∧
        s.history = (s₀.stepped s.current.steps).history ∧
        s.message = (s₀.stepped s.current.steps).message ∧
        (s.status = (s₀.stepped s.current.steps).status ∨
          s.current.steps = 0 ∧ s.status = .running ∧
            (s₀.stepped s.current.steps).status = .notStarted)) := by
  intro g repair t commands
  have hstart := Eq.refl (start g t ["b", "", "a"])
  exact ⟨_, _, hstart, rfl, by decide, performAll_eq_stepped hstart commands rfl⟩

end Simulation

end PredictiveParsing
