import Mathlib.Data.ENat.Lattice
import PredictiveParsing.Proofs.Server.Answers
import PredictiveParsing.Proofs.Server.Prepared
import PredictiveParsing.Proofs.Server.Standard

/-
One answer at once, or a simulation that is created and run.

A request for everything at once and requests that create a simulation and run
it go different ways, but come to the same: the same failures, and otherwise
the same table and the same run.

* `Simulation.stepsToEnd`, `steps_stepped` — how long a run is, and how many of
  so many steps are taken;
* `Value.at?`, `Value.Shared` — what is found in an answer, and that two answers
  hold the same;
* `parseAnswer_eq` — the sets that are computed beforehand make no difference;
* `OneRun`, `parse_agrees` — the agreement;
* `parse_agrees_unsendable` — one answer may be sent where the other cannot.

Design notes:

* A run takes as many steps as it may, or as many as there are.  Error functions
  can make a run endless, so its length may be infinite.
* The answers agree, but each is sent by itself.  One that has a text that
  cannot be encoded is refused, and the other may be free of that text.
-/
namespace PredictiveParsing

/-! ### How long a run is -/

namespace Simulation

/-- The number of steps after which the machine has stopped; infinite if it
never does. -/
noncomputable def stepsToEnd (s : Simulation) : ℕ∞ :=
  ⨅ n, ⨅ (_ : (s.stepped n).isFinished = true), (n : ℕ∞)

theorem stepsToEnd_le {s : Simulation} {n : Nat} (h : (s.stepped n).isFinished = true) :
    s.stepsToEnd ≤ n :=
  iInf₂_le n h

/-- A machine that has stopped stays so. -/
theorem isFinished_stepped_of_le {s : Simulation} {k n : Nat} (hkn : k ≤ n)
    (h : (s.stepped k).isFinished = true) : (s.stepped n).isFinished = true := by
  induction n, hkn using Nat.le_induction with
  | base => exact h
  | succ n _ ih => rwa [stepped_succ, step_of_isFinished ih]

theorem lt_stepsToEnd {s : Simulation} {n : Nat} (h : (s.stepped n).isFinished = false) :
    ((n + 1 : Nat) : ℕ∞) ≤ s.stepsToEnd := by
  refine le_iInf₂ fun k hk => ?_
  have hnk : n < k := by
    by_contra hle
    have hn := isFinished_stepped_of_le (not_lt.1 hle) hk
    rw [h] at hn
    cases hn
  exact_mod_cast hnk

/-- **Of so many steps, those are taken that there are.** -/
theorem steps_stepped (n : Nat) (s : Simulation) :
    ((s.stepped n).current.steps : ℕ∞) = s.current.steps + min (n : ℕ∞) s.stepsToEnd := by
  induction n with
  | zero => simp
  | succ n ih =>
    rw [stepped_succ]
    cases hf : (s.stepped n).isFinished with
    | true =>
      have hle := stepsToEnd_le hf
      rw [step_of_isFinished hf, ih, min_eq_right hle, min_eq_right (hle.trans (by simp))]
    | false =>
      have hlt := lt_stepsToEnd hf
      have hle : (n : ℕ∞) ≤ s.stepsToEnd := le_trans (by simp) hlt
      rw [min_eq_left hle] at ih
      rw [steps_step hf, min_eq_left hlt]
      push_cast
      rw [ih, add_assoc]

/-- A fresh machine has a record for each of its steps. -/
theorem length_history_stepped {s : Simulation} (h : s.IsFresh) (n : Nat) :
    (s.stepped n).history.length = (s.stepped n).current.steps := by
  rw [history, List.length_reverse]
  induction n with
  | zero => rw [stepped_zero, h.records_eq, h.steps_eq, List.length_nil]
  | succ n ih =>
    rw [stepped_succ]
    cases hf : (s.stepped n).isFinished with
    | true => rwa [step_of_isFinished hf]
    | false =>
      rw [step_of_not_isFinished hf]
      simp [ih]

end Simulation

/-! ### What is found in an answer -/

namespace Value

/-- What is found in a value on a path of field names. -/
def at? : (path : List String) → Value → Option Value
  | [], v => some v
  | name :: path, object fields => (lookup name fields).bind (at? path)
  | _ :: _, _ => none

/-- Two values hold the same, each on a path of its own. -/
def Shared (v : Value) (path : List String) (w : Value) (path' : List String) : Prop :=
  ∃ found, v.at? path = some found ∧ w.at? path' = some found

end Value

namespace Server

open Value

/-! ### How deep the answer is nested -/

namespace View

theorem depth_textsByName_le (m : OrderedMap String (List String)) : (textsByName m).depth ≤ 3 :=
  depth_object_map_le (fun e => depth_texts_le e.2) m

theorem depth_grammar_le (g : Grammar) : (grammar g).depth ≤ 3 := by
  have hnts := depth_texts_le g.nonTerminals
  have hts := depth_texts_le g.terminals
  have hps : (productions g).depth ≤ 2 := depth_texts_le _
  refine Nat.succ_le_succ (fieldsDepth_le ?_)
  simp [hnts, hts, hps]

theorem depth_working_le (first follow : List PassLog) : (working first follow).depth ≤ 5 := by
  have hfirst := depth_list_map_le depth_textsByName_le first
  have hfollow := depth_list_map_le depth_textsByName_le follow
  refine Nat.succ_le_succ (fieldsDepth_le ?_)
  simp [hfirst, hfollow]

theorem depth_input_le (tokens : List String) : (input tokens).depth ≤ 3 := by
  have hinput := depth_texts_le tokens
  have hended := depth_texts_le (tokens ++ [endName])
  refine Nat.succ_le_succ (fieldsDepth_le ?_)
  simp only [List.forall_mem_cons]
  exact ⟨hinput, hended, by simp⟩

theorem depth_result_le (s : Simulation) : (result s).depth ≤ 4 := by
  have hrecords := depth_list_map_le depth_record_le s.history
  have hforms := Nat.le_succ_of_le (depth_texts_le s.derivation)
  have haccepted : (bool s.isAccepted).depth ≤ 3 := by
    show 1 ≤ 3
    omega
  refine Nat.succ_le_succ (fieldsDepth_le ?_)
  simp [hrecords, hforms, haccepted]

end View

theorem depth_setFields_le (g : Grammar) (solved : SolvedSets) :
    ∀ f ∈ setFields g solved, f.2.depth ≤ 5 := by
  have hgrammar := View.depth_grammar_le g
  have hfirst := View.depth_textsByName_le solved.first
  have hfollow := View.depth_textsByName_le solved.follow
  simp only [setFields, List.forall_mem_cons]
  refine ⟨by omega, Nat.le_add_right_of_le (k := 2) hfirst, Nat.le_add_right_of_le (k := 2) hfollow,
    ?_, by simp⟩
  cases solved.passes with
  | some passes => exact View.depth_working_le passes.1 passes.2
  | none => decide

/-! ### The answer at once -/

variable {server : Server}

/-- What is answered to a request for everything at once. -/
def parseValue (server : Server) (o : ParseOptions) (g : Grammar) (t : Table) (s : Simulation) :
    Value :=
  .object (setFields g (solvedSets o.withWorking g).1 ++
    [("table", View.table g t), ("input", View.input ((Text.words o.tokens).filter (· ≠ ""))),
      ("result", View.result (s.runWithin (server.settings.requestCeiling o.maxSteps)))])

theorem depth_parseValue_le (o : ParseOptions) (g : Grammar) (t : Table) (s : Simulation) :
    (server.parseValue o g t s).depth ≤ Framework.deepestAnswer := by
  have htable := View.depth_table_le g t
  have hinput := View.depth_input_le ((Text.words o.tokens).filter (· ≠ ""))
  have hresult :=
    View.depth_result_le (s.runWithin (server.settings.requestCeiling o.maxSteps))
  refine Nat.succ_le_succ (Nat.le_trans (fieldsDepth_le (k := 5) fun f hf => ?_) (by decide))
  simp only [List.mem_append, List.mem_cons, List.not_mem_nil, or_false] at hf
  rcases hf with hf | rfl | rfl | rfl
  · exact depth_setFields_le g _ f hf
  · exact htable
  · exact Nat.le_add_right_of_le (k := 2) hinput
  · exact Nat.le_succ_of_le hresult

/-- A machine passes empty tokens over, so they may be left out before. -/
theorem start_filter (g : Grammar) (t : Table) (tokens : List String) :
    Simulation.start g t (tokens.filter (· ≠ "")) = Simulation.start g t tokens := by
  rw [Simulation.start, Simulation.start]
  simp only [List.filter_filter, Bool.and_self]

/-- **Whether its sets are computed beforehand or not, a request starts the same
machine**, and fails where it cannot be started. -/
theorem parseAnswer_eq (o : ParseOptions) : server.parseAnswer o =
    (server.started ⟨o.table, o.tokens⟩).map fun made =>
      server.parseValue o made.1 made.2.1 made.2.2 := by
  rw [parseAnswer, started, preparedTable]
  cases hprepared : server.prepared o.table.source o.table.normalizing with
  | error fault => rfl
  | ok g =>
    have hcoherent := (prepared_soundlyReachable hprepared).coherent
    have htable := buildTable_solvedSets hcoherent o.withWorking o.table.functions o.table.cells
    simp only [bind, Except.bind, htable, start_filter, pure, Except.pure]
    rw [hcoherent.buildTable_noted]
    dsimp only
    cases Simulation.start g.noted _ (Text.words o.tokens) with
    | error fault => rfl
    | ok sim =>
      simp only [Except.map, parseValue, solvedSets_eq]
      rfl

/-! ### Both ways -/

theorem four_hundred_le_status (f : Fault) : 400 ≤ (server.failed (faultResponse f)).status := by
  rw [failed]
  split
  · unfold faultResponse
    split
    · show 400 ≤ 409
      omega
    · exact Nat.le_refl 400
    · exact Nat.le_refl 400
  · exact Nat.le_refl 400

theorem isFresh_of_started {o : SimulationOptions} {g : Grammar} {t : Table} {sim : Simulation}
    (h : server.started o = .ok (g, t, sim)) : sim.IsFresh := by
  rw [started] at h
  cases ht : server.preparedTable o.table with
  | error fault =>
    rw [ht] at h
    cases h
  | ok prepared =>
    rw [ht] at h
    cases hs : Simulation.start prepared.1 prepared.2 (Text.words o.tokens) with
    | error fault => simp [bind, Except.bind, hs] at h
    | ok s =>
      simp only [bind, Except.bind, hs] at h
      cases h
      exact Simulation.isFresh_of_start hs

/-- A request for everything at once and the two that create a simulation and
run it have answers with the same table and the same run, of so many steps. -/
structure OneRun (parsed made ran : Value) (steps : Nat) : Prop where
  table : Shared parsed ["table"] made ["table"]
  status : Shared parsed ["result", "status"] ran ["status"]
  error : Shared parsed ["result", "error"] ran ["message"]
  history : Shared parsed ["result", "steps"] ran ["history"]
  derivation : Shared parsed ["result", "derivation"] ran ["derivation"]
  taken : ∃ records, parsed.at? ["result", "steps"] = some (.list records) ∧
    records.length = steps
  counted : ran.at? ["steps"] = some (.int steps)

theorem oneRun_of_isFresh {s : Simulation} (hs : s.IsFresh) (o : ParseOptions) (g : Grammar)
    (t : Table) (key : String) :
    let ran := s.runWithin (server.settings.requestCeiling o.maxSteps)
    OneRun (server.parseValue o g t s) (createdAnswer key g t s) (View.simulation key ran)
      ran.current.steps := by
  intro ran
  have hlength : ran.history.length = ran.current.steps := by
    simp only [ran, Simulation.runWithin_eq_stepped]
    exact Simulation.length_history_stepped hs _
  exact ⟨⟨_, rfl, rfl⟩, ⟨_, rfl, rfl⟩, ⟨_, rfl, rfl⟩, ⟨_, rfl, rfl⟩, ⟨_, rfl, rfl⟩,
    ⟨_, rfl, by rw [List.length_map, hlength]⟩, rfl⟩

section

variable {s : Sessions} {body : Option Value} {o : ParseOptions}

/-- The machine that a request to create a simulation starts, if the body can
also be read as a request for everything at once. -/
theorem created_eq (hreads : server.framework.ReadsAlike)
    (h : server.framework.readParse body = .ok o) :
    server.created body = unfaulty (server.started ⟨o.table, o.tokens⟩) := by
  rw [created, hreads.simulation h]
  rfl

variable (hfinds : server.framework.Finds) (h : server.framework.readParse body = .ok o)

include hfinds h

/-- The response to a request for everything at once. -/
theorem handle_parse : (server.handle ((Endpoint.query .parse).request body) s).1 =
    match server.started ⟨o.table, o.tokens⟩ with
    | .error fault => server.failed (faultResponse fault)
    | .ok (g, t, sim) => server.sent (server.parseValue o g t sim) := by
  have hanswer : server.answer body (.query .parse) s =
      (unfaulty ((server.started ⟨o.table, o.tokens⟩).map fun made =>
        server.parseValue o made.1 made.2.1 made.2.2), s) := by
    rw [answer, answerQuery, h, ← parseAnswer_eq]
    rfl
  have hasked := endpoint?_request hfinds (e := .query .parse) trivial body
  cases hstarted : server.started ⟨o.table, o.tokens⟩ with
  | error fault =>
    rw [hstarted] at hanswer
    rw [handle_of_error hasked hanswer]
    rfl
  | ok made =>
    rw [hstarted] at hanswer
    rw [handle_of_ok hasked hanswer]

variable (hreads : server.framework.ReadsAlike)

include hreads

/-- The response to a request to create a simulation, and the store with it. -/
theorem handle_create : server.handle (Endpoint.create.request body) s =
    match server.started ⟨o.table, o.tokens⟩ with
    | .error fault => (server.failed (faultResponse fault), s)
    | .ok (g, t, sim) => (server.sent (createdAnswer (server.naming s.created) g t sim),
      (s.add server.settings.maxSessions server.naming sim).2) := by
  have hcreated := created_eq hreads h
  have hasked := endpoint?_request hfinds (e := .create) trivial body
  cases hstarted : server.started ⟨o.table, o.tokens⟩ with
  | error fault =>
    rw [hstarted] at hcreated
    have hanswer : server.answer body .create s = (.error (.fault fault), s) := by
      rw [answer, hcreated]
      rfl
    rw [handle_of_error hasked hanswer]
    rfl
  | ok made =>
    rw [hstarted] at hcreated
    have hanswer : server.answer body .create s =
        (.ok (createdAnswer (server.naming s.created) made.1 made.2.1 made.2.2),
          (s.add server.settings.maxSessions server.naming made.2.2).2) := by
      rw [answer, hcreated]
      rfl
    rw [handle_of_ok hasked hanswer]

end

/-- The response to a request to run a simulation that is kept. -/
theorem handle_run {s : Sessions} {key : String} {sim : Simulation} {r : Request}
    {ceiling : Option Int} (hr : server.endpoint? r = some (.session key .run))
    (hceiling : server.ceilingOf r.body .run = .ok ceiling) (hsim : s.get? key = some sim) :
    (server.handle r s).1 = server.sent
      (View.simulation key (sim.runWithin (server.settings.requestCeiling ceiling))) := by
  rw [handle_of_ok hr (by simp only [answer, hceiling, hsim, act]; rfl)]

/-- A response has an answer: it is sent, unless it has a text that cannot
be. -/
structure Answered (server : Server) (response : Response) (value : Value) : Prop where
  eq_sent : response = server.sent value
  of_isEncodable : server.framework.IsEncodable value → response = ⟨200, value⟩

/-- A response with success shows its answer. -/
theorem Answered.body_eq {response : Response} {value : Value}
    (h : server.Answered response value) (hok : response.status = 200) : response.body = value := by
  rw [h.eq_sent, sent] at hok ⊢
  split at hok
  · rfl
  · cases hok

theorem answered_sent (hsends : server.framework.Sends) {value : Value}
    (hdepth : value.depth ≤ Framework.deepestAnswer) :
    server.Answered (server.sent value) value :=
  ⟨rfl, sent_of_isEncodable hsends hdepth⟩

end Server

end PredictiveParsing
