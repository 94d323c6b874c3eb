import PredictiveParsing.Proofs.Simulation.Replay

/-
How a run ends, told from stack and input alone.

* `Ends` — from a stack and an input the machine stops, in a status with a
  given property;
* `Ends.runToEnd` — a machine that stands there ends its run so;
* `Ends.accept`, `Ends.consume`, `Ends.expand` — one step before such an end;
* `stops_cons` — everything that keeps a machine without error functions from
  stopping at once.
-/
namespace PredictiveParsing

/-- From this stack and input the machine stops, in a status with the
property. -/
inductive Ends (g : Grammar) (t : Table) (P : Status → Prop) :
    List String → List String → Prop where
  | stop {stack input : List String}
      (hf : (Move.next g t ⟨stack, input, 0⟩).status.isFinal = true)
      (hp : P (Move.next g t ⟨stack, input, 0⟩).status) : Ends g t P stack input
  | go {stack input : List String}
      (hf : (Move.next g t ⟨stack, input, 0⟩).status.isFinal = false)
      (h : Ends g t P (Move.next g t ⟨stack, input, 0⟩).stack
        (Move.next g t ⟨stack, input, 0⟩).input) : Ends g t P stack input

/-- From this stack and input the machine stops. -/
def Stops (g : Grammar) (t : Table) : List String → List String → Prop :=
  Ends g t fun _ => True

variable {g : Grammar} {t : Table} {P : Status → Prop} {below later : List String}

/-- A machine that stands where the run ends ends its run. -/
theorem Ends.runToEnd {stack input : List String} (h : Ends g t P stack input) {s : Simulation}
    (hg : s.grammar = g) (ht : s.table = t) (hstack : s.current.stack = stack)
    (hinput : s.current.input = input) (hf : s.isFinished = false) :
    ∃ r, s.runToEnd = some r ∧ P r.status := by
  induction h generalizing s with
  | stop hfinal hp =>
    subst hg ht hstack hinput
    have hstep := Simulation.step_of_not_isFinished hf
    have hstatus : s.step.2.status = (Move.next s.grammar s.table s.current).status := by
      rw [hstep]
    have hdone : s.step.2.isFinished = true := by
      rw [Simulation.isFinished, hstatus]
      exact hfinal
    refine ⟨s.step.2, ?_, ?_⟩
    · rw [← Simulation.runToEnd_step, Simulation.runToEnd_of_isFinished hdone]
    · rw [hstatus]
      exact hp
  | go hgo _ ih =>
    -- The run from here is the run behind one step.
    subst hg ht hstack hinput
    have hstep := Simulation.step_of_not_isFinished hf
    obtain ⟨hg', ht', -⟩ := Simulation.step_frame s
    rw [← Simulation.runToEnd_step]
    refine ih hg' ht' ?_ ?_ ?_
    · rw [hstep]
      rfl
    · rw [hstep]
      rfl
    · rw [hstep]
      exact hgo

/-- Of the grammar, only the non-terminals count. -/
theorem Ends.of_nonTerminals {g' : Grammar} (hn : g'.nonTerminals = g.nonTerminals)
    {stack input : List String} (h : Ends g t P stack input) : Ends g' t P stack input := by
  have hnext : ∀ c, Move.next g' t c = Move.next g t c := by
    intro c
    simp only [Move.next, Move.decide, Grammar.isNonTerminal, hn]
  induction h with
  | stop hf hp =>
    rw [← hnext] at hf hp
    exact .stop hf hp
  | go hf _ ih =>
    rw [← hnext] at hf ih
    exact .go hf ih

/-! ### One step before the end -/

/-- Both end markers in front mean acceptance. -/
theorem Ends.accept (hp : P .accepted) : Ends g t P (endName :: below) (endName :: later) := by
  have hd : Move.next g t ⟨endName :: below, endName :: later, 0⟩ =
      { stack := endName :: below, input := endName :: later,
        verdict := some ⟨.accepted, none⟩, action := "Accept" } := by
    simp [Move.next, Move.decide]
  refine .stop ?_ ?_
  · rw [hd]
    rfl
  · rw [hd]
    exact hp

theorem Ends.consume {a : String} (ha : a ∉ g.nonTerminals) (hne : a ≠ endName)
    (h : Ends g t P below later) : Ends g t P (a :: below) (a :: later) := by
  have hd : Move.next g t ⟨a :: below, a :: later, 0⟩ =
      { stack := below, input := later, action := "Match" } := by
    simp [Move.next, Move.decide, Grammar.isNonTerminal, ha, hne]
  refine .go ?_ ?_
  · rw [hd]
    rfl
  · rw [hd]
    exact h

/-- A non-terminal on top is replaced by what its cell tells. -/
theorem Move.next_of_production {c : Configuration} {n ahead : String} {p : Production}
    (hstack : c.stack = n :: below) (hinput : c.input = ahead :: later) (hn : n ∈ g.nonTerminals)
    (hne : n ≠ endName) (he : t.get? n ahead = some (.production p)) :
    Move.next g t c =
      { stack := p.yield.map Symbol.name ++ below, input := ahead :: later, action := p.text,
        production := some p } := by
  rw [Move.next, hstack, hinput]
  simp [Move.decide, Grammar.isNonTerminal, hn, hne, he]

theorem Ends.expand {n ahead : String} {p : Production} (hend : endName ∉ g.nonTerminals)
    (hn : n ∈ g.nonTerminals) (he : t.get? n ahead = some (.production p))
    (h : Ends g t P (p.yield.map Symbol.name ++ below) (ahead :: later)) :
    Ends g t P (n :: below) (ahead :: later) := by
  have hne : n ≠ endName := fun hm => hend (hm ▸ hn)
  have hd := Move.next_of_production (c := ⟨n :: below, ahead :: later, 0⟩) rfl rfl hn hne he
  refine .go ?_ ?_
  · rw [hd]
    rfl
  · rw [hd]
    exact h

/-! ### Stopping -/

theorem stops_of_isFinal {stack input : List String}
    (hf : (Move.next g t ⟨stack, input, 0⟩).status.isFinal = true) : Stops g t stack input :=
  .stop hf trivial

/-- Only a production or a match keeps a machine without error functions from
stopping at once. -/
theorem stops_cons {top ahead : String} (hend : endName ∉ g.nonTerminals)
    (hplain : ∀ row column f, t.get? row column ≠ some (.errorFunction f))
    (hexpand : ∀ p, top ∈ g.nonTerminals → t.get? top ahead = some (.production p) →
      Stops g t (p.yield.map Symbol.name ++ below) (ahead :: later))
    (hmatch : top = ahead → Stops g t below later) :
    Stops g t (top :: below) (ahead :: later) := by
  rcases Move.decide_cases g t top below ahead later with
    ⟨-, -, hd⟩ | ⟨_, hd⟩ | ⟨p, hn, he, -⟩ | ⟨f, -, he, -⟩ | ⟨rfl, hne, hn, -⟩
  · refine stops_of_isFinal ?_
    show (Move.decide g t top below ahead later).status.isFinal = true
    rw [hd]
    rfl
  · refine stops_of_isFinal ?_
    show (Move.decide g t top below ahead later).status.isFinal = true
    rw [hd]
    rfl
  · exact .expand hend hn he (hexpand p hn he)
  · exact absurd he (hplain _ _ f)
  · exact .consume hn hne (hmatch rfl)

/-- Without a stack or an input the machine stops. -/
theorem stops_nil (input : List String) : Stops g t [] input :=
  stops_of_isFinal rfl

theorem stops_nil_input (stack : List String) : Stops g t stack [] := by
  cases stack with
  | nil => exact stops_nil []
  | cons top below => exact stops_of_isFinal rfl

end PredictiveParsing
