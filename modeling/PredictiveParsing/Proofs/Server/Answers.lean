import PredictiveParsing.Proofs.Server.Store
import PredictiveParsing.Proofs.Simulation.Replay
import PredictiveParsing.Server

/-
What one request does to the store.

A request may start a simulation, give one up, or tell one that is kept to
step, to take steps back, to rewind or to run.  Whatever else it asks for, and
whenever it cannot be carried out, the store stays as it was.

* `endpoint?` — what a request asks for;
* `commandTo` — the command that a request gives to a simulation;
* `depth_simulation_le`, `depth_createdAnswer_le` — how deep answers are nested;
* `Change` — a request that is carried out, its answer and what it leaves;
* `Effect`, `effect_handle` — everything that can come of a request;
* `Change.status_eq` — a change is answered with success if its answer can be
  encoded.

Design notes:

* An answer is sent after the store was changed.  So a request may change the
  store and fail all the same.  That takes a text that cannot be encoded: only
  parse trees are nested too deep, and to look at one changes nothing.
-/
namespace PredictiveParsing

/-! ### How deep answers are nested -/

namespace Value

theorem itemsDepth_le {items : List Value} {k : Nat} (h : ∀ v ∈ items, v.depth ≤ k) :
    itemsDepth items ≤ k := by
  induction items with
  | nil => exact Nat.zero_le k
  | cons v vs ih =>
    obtain ⟨hv, hvs⟩ := List.forall_mem_cons.1 h
    exact Nat.max_le.2 ⟨hv, ih hvs⟩

theorem fieldsDepth_le {fields : List (String × Value)} {k : Nat}
    (h : ∀ f ∈ fields, f.2.depth ≤ k) : fieldsDepth fields ≤ k := by
  induction fields with
  | nil => exact Nat.zero_le k
  | cons f fs ih =>
    obtain ⟨hf, hfs⟩ := List.forall_mem_cons.1 h
    exact Nat.max_le.2 ⟨hf, ih hfs⟩

theorem depth_list_map_le {α : Type} {f : α → Value} {k : Nat} (h : ∀ a, (f a).depth ≤ k)
    (as : List α) : (list (as.map f)).depth ≤ k + 1 := by
  refine Nat.succ_le_succ (itemsDepth_le fun v hv => ?_)
  obtain ⟨a, -, rfl⟩ := List.mem_map.1 hv
  exact h a

theorem depth_object_map_le {α : Type} {f : α → String × Value} {k : Nat}
    (h : ∀ a, (f a).2.depth ≤ k) (as : List α) : (object (as.map f)).depth ≤ k + 1 := by
  refine Nat.succ_le_succ (fieldsDepth_le fun v hv => ?_)
  obtain ⟨a, -, rfl⟩ := List.mem_map.1 hv
  exact h a

theorem depth_texts_le (ss : List String) : (texts ss).depth ≤ 2 :=
  depth_list_map_le (fun _ => Nat.le_refl 1) ss

@[simp] theorem depth_text (s : String) : (text s).depth = 1 := rfl

@[simp] theorem depth_int (n : Int) : (int n).depth = 1 := rfl

@[simp] theorem depth_optionalText (s : Option String) : (optionalText s).depth = 1 := by
  cases s <;> rfl

end Value

namespace Server

open Value

namespace View

theorem depth_record_le (r : Record) : (record r).depth ≤ 2 :=
  Nat.le_of_eq rfl

theorem depth_diagnostic_le (d : Diagnostic) : (diagnostic d).depth ≤ 2 := by
  simp [diagnostic, depth, fieldsDepth]

theorem depth_errorFunction_le (f : ErrorFunction) : (errorFunction f).depth ≤ 2 := by
  simp [errorFunction, depth, fieldsDepth]

theorem depth_row_le (cells : List (String × String)) : (row cells).depth ≤ 2 :=
  depth_object_map_le (fun _ => Nat.le_refl 1) cells

theorem depth_simulationFields_le (key : String) (s : Simulation) :
    ∀ f ∈ simulationFields key s, f.2.depth ≤ 3 := by
  have hrecords := depth_list_map_le depth_record_le s.history
  have hforms := Nat.le_succ_of_le (depth_texts_le s.derivation)
  simp [simulationFields, hrecords, hforms]

theorem depth_table_le (g : Grammar) (t : Table) : (table g t).depth ≤ 5 := by
  have hcolumns := Nat.le_add_right_of_le (k := 2) (depth_texts_le t.columns)
  have hrows : (object ((t.texts (some g)).map fun r => (r.1, row r.2))).depth ≤ 3 :=
    depth_object_map_le (fun r => depth_row_le r.2) _
  have hfunctions : (list (t.errorFunctions.map fun e : String × ErrorFunction =>
      errorFunction e.2)).depth ≤ 3 :=
    depth_list_map_le (fun e : String × ErrorFunction => depth_errorFunction_le e.2) _
  have hconflicts := depth_list_map_le depth_diagnostic_le t.conflicts
  have hissues := depth_list_map_le depth_diagnostic_le t.issues
  refine Nat.succ_le_succ (fieldsDepth_le ?_)
  simp only [List.forall_mem_cons]
  refine ⟨hcolumns, ?_, ?_, ?_, ?_, by simp⟩ <;> omega

theorem depth_simulation_le (key : String) (s : Simulation) : (simulation key s).depth ≤ 4 :=
  Nat.succ_le_succ (fieldsDepth_le (depth_simulationFields_le key s))

end View

theorem depth_createdAnswer_le (key : String) (g : Grammar) (t : Table) (s : Simulation) :
    (createdAnswer key g t s).depth ≤ 6 := by
  refine Nat.succ_le_succ (fieldsDepth_le fun f hf => ?_)
  rcases List.mem_append.1 hf with hf | hf
  · exact Nat.le_add_right_of_le (k := 2) (View.depth_simulationFields_le key s f hf)
  · rw [List.mem_singleton.1 hf]
    exact View.depth_table_le g t

/-! ### What a request asks for -/

/-- What a request asks for, if that is known. -/
def endpoint? (server : Server) (r : Request) : Option Endpoint :=
  (server.framework.route r.method r.path).toOption

/-- An endpoint is what is asked for where it is declared. -/
theorem endpoint?_request {server : Server} (hfinds : server.framework.Finds) {e : Endpoint}
    (he : e.IsAddressable) (body : Option Value) : server.endpoint? (e.request body) = some e := by
  rw [endpoint?, Endpoint.request, hfinds e he]
  rfl

/-- The command in a request for an action, if there is one that can be
read. -/
def commandOf (server : Server) (body : Option Value) : SessionAction → Option Command
  | .step => some .step
  | .back => some .stepBack
  | .rewind => some .rewind
  | .run =>
    (server.ceilingOf body .run).toOption.map fun ceiling =>
      .run (some (server.settings.requestCeiling ceiling))
  | _ => none

/-- The command that a request gives to the simulation under a key, if it gives
one. -/
def commandTo (server : Server) (key : String) (r : Request) : Option Command :=
  match server.endpoint? r with
  | some (.session other action) => if other = key then server.commandOf r.body action else none
  | _ => none

section

variable {server : Server} {r : Request} {s : Sessions} {key : String} {action : SessionAction}

theorem commandTo_of_session (h : server.endpoint? r = some (.session key action)) :
    server.commandTo key r = server.commandOf r.body action := by
  rw [commandTo, h]
  exact if_pos rfl

theorem commandTo_of_ne {other : String} (h : server.endpoint? r = some (.session key action))
    (hne : key ≠ other) : server.commandTo other r = none := by
  rw [commandTo, h]
  exact if_neg hne

theorem commandTo_of_commandOf_eq_none {other : String}
    (h : server.endpoint? r = some (.session key action)) (hc : server.commandOf r.body action = none) :
    server.commandTo other r = none := by
  rw [commandTo, h]
  dsimp only
  rw [hc, ite_self]

theorem commandOf_of_ceilingOf_error {body : Option Value} {failure : Failure}
    (h : server.ceilingOf body action = .error failure) : server.commandOf body action = none := by
  cases action with
  | run => rw [commandOf, h]; rfl
  | look => rfl
  | delete => rfl
  | tree => rfl
  | step => cases h
  | back => cases h
  | rewind => cases h

theorem commandTo_of_create (h : server.endpoint? r = some .create) : server.commandTo key r = none := by
  rw [commandTo, h]

theorem handle_of_none (h : server.endpoint? r = none) : (server.handle r s).2 = s := by
  rw [endpoint?] at h
  rw [handle]
  cases hroute : server.framework.route r.method r.path with
  | error response => rfl
  | ok e => simp [hroute, Except.toOption] at h

theorem route_of_endpoint? {e : Endpoint} (h : server.endpoint? r = some e) :
    server.framework.route r.method r.path = .ok e := by
  rw [endpoint?] at h
  cases hroute : server.framework.route r.method r.path with
  | error response => simp [hroute, Except.toOption] at h
  | ok e' => simpa [hroute, Except.toOption] using h

/-- An answer is sent if it can be, and the store is the one that the endpoint
leaves. -/
theorem handle_of_ok {e : Endpoint} {value : Value} {s' : Sessions}
    (h : server.endpoint? r = some e) (ha : server.answer r.body e s = (.ok value, s')) :
    server.handle r s = (server.sent value, s') := by
  rw [handle, route_of_endpoint? h]
  simp only [ha]

theorem handle_of_error {e : Endpoint} {failure : Failure} {s' : Sessions}
    (h : server.endpoint? r = some e) (ha : server.answer r.body e s = (.error failure, s')) :
    server.handle r s = (server.failureResponse failure, s') := by
  rw [handle, route_of_endpoint? h]
  simp only [ha]

theorem handle_of_query {q : Query} (h : server.endpoint? r = some (.query q)) :
    (server.handle r s).2 = s := by
  cases hq : server.answerQuery r.body q with
  | error failure => rw [handle_of_error h (by rw [answer, hq])]
  | ok value => rw [handle_of_ok h (by rw [answer, hq])]

/-- Answers that are not nested too deep are sent, if their texts can be. -/
theorem sent_of_isEncodable (hsends : server.framework.Sends) {value : Value}
    (hdepth : value.depth ≤ Framework.deepestAnswer) (h : server.framework.IsEncodable value) :
    server.sent value = ⟨200, value⟩ := by
  rw [sent, hsends value hdepth h]

end

/-! ### What it does -/

/-- A request is carried out: a simulation is added, given up, or told
something.  There is an answer to each. -/
inductive Change (server : Server) (r : Request) (s : Sessions) : Value → Sessions → Prop where
  | added {g : Grammar} {t : Table} {sim : Simulation} (he : server.endpoint? r = some .create)
      (hc : server.created r.body = .ok (g, t, sim)) :
      Change server r s (createdAnswer (server.naming s.created) g t sim)
        (s.add server.settings.maxSessions server.naming sim).2
  | removed {key : String} (he : server.endpoint? r = some (.session key .delete))
      (hs : s.get? key ≠ none) :
      Change server r s (.object [("status", .text "deleted")]) (s.remove key)
  | commanded {key : String} {action : SessionAction} {sim after : Simulation} {c : Command}
      (he : server.endpoint? r = some (.session key action)) (hs : s.get? key = some sim)
      (hc : server.commandOf r.body action = some c) (hp : sim.perform c = some after) :
      Change server r s (View.simulation key after) (s.update key after)

/-- What can come of a request: a change, or the store as it was, where no
simulation was told anything. -/
inductive Effect (server : Server) (r : Request) (s : Sessions) : Response × Sessions → Prop where
  | changed {value : Value} {s' : Sessions} (h : Change server r s value s') :
      Effect server r s (server.sent value, s')
  | idle {response : Response}
      (hnone : ∀ key, s.get? key ≠ none → server.commandTo key r = none) :
      Effect server r s (response, s)

/-- No answer to a change is nested too deep. -/
theorem Change.depth_le {server : Server} {r : Request} {s s' : Sessions} {value : Value}
    (h : Change server r s value s') : value.depth ≤ Framework.deepestAnswer := by
  cases h with
  | added => exact Nat.le_trans (depth_createdAnswer_le _ _ _ _) (by decide)
  | removed => decide
  | commanded => exact Nat.le_trans (View.depth_simulation_le _ _) (by decide)

/-- **A change is answered with success if its answer can be encoded.** -/
theorem Change.status_eq {server : Server} (hsends : server.framework.Sends) {r : Request}
    {s s' : Sessions} {value : Value} (h : Change server r s value s')
    (hvalue : server.framework.IsEncodable value) : (server.sent value).status = 200 := by
  rw [sent_of_isEncodable hsends h.depth_le hvalue]

/-- What an action does to a simulation: it gives it up, carries a command out
and shows what came of it, or leaves it as it was. -/
theorem act_cases (server : Server) {body : Option Value} {action : SessionAction}
    {ceiling : Option Int} (h : server.ceilingOf body action = .ok ceiling) (key : String)
    (sim : Simulation) :
    (action = .delete ∧
      server.act key ceiling sim action = (.object [("status", .text "deleted")], none)) ∨
    (∃ c after, server.commandOf body action = some c ∧ sim.perform c = some after ∧
      server.act key ceiling sim action = (View.simulation key after, some after)) ∨
    (server.commandOf body action = none ∧
      ∃ value, server.act key ceiling sim action = (value, some sim)) := by
  cases action with
  | look => exact .inr (.inr ⟨rfl, _, rfl⟩)
  | delete => exact .inl ⟨rfl, rfl⟩
  | step => exact .inr (.inl ⟨.step, _, rfl, rfl, rfl⟩)
  | back => exact .inr (.inl ⟨.stepBack, _, rfl, rfl, rfl⟩)
  | rewind => exact .inr (.inl ⟨.rewind, _, rfl, rfl, rfl⟩)
  | run => exact .inr (.inl ⟨_, _, by rw [commandOf, h]; rfl, rfl, rfl⟩)
  | tree => exact .inr (.inr ⟨rfl, _, rfl⟩)

section

variable {server : Server} {r : Request} {s : Sessions}

theorem effect_of_kept (hs : (server.handle r s).2 = s)
    (hnone : ∀ key, server.commandTo key r = none) : Effect server r s (server.handle r s) := by
  have heq : server.handle r s = ((server.handle r s).1, s) := Prod.ext rfl hs
  rw [heq]
  exact .idle fun key _ => hnone key

theorem effect_create (he : server.endpoint? r = some .create) :
    Effect server r s (server.handle r s) := by
  cases hc : server.created r.body with
  | error failure =>
    rw [handle_of_error he (by rw [answer, hc])]
    exact .idle fun key _ => commandTo_of_create he
  | ok made =>
    obtain ⟨g, t, sim⟩ := made
    rw [handle_of_ok he (by rw [answer, hc])]
    exact .changed (.added he hc)

theorem effect_session {key : String} {action : SessionAction}
    (he : server.endpoint? r = some (.session key action)) :
    Effect server r s (server.handle r s) := by
  cases hb : server.ceilingOf r.body action with
  | error failure =>
    rw [handle_of_error he (by rw [answer, hb])]
    exact .idle fun _ _ => commandTo_of_commandOf_eq_none he (commandOf_of_ceilingOf_error hb)
  | ok ceiling =>
    cases hs : s.get? key with
    | none =>
      have hans : server.answer r.body (.session key action) s =
          (.error (.noSession key), s) := by simp only [answer, hb, hs]
      rw [handle_of_error he hans]
      -- The simulations that are there have other keys.
      refine .idle fun other ho => commandTo_of_ne he ?_
      rintro rfl
      exact ho hs
    | some sim =>
      rcases act_cases server hb key sim with ⟨rfl, ha⟩ | ⟨c, after, hc, hp, ha⟩ | ⟨hc, value, ha⟩
      · have hans : server.answer r.body (.session key .delete) s =
            (.ok (.object [("status", .text "deleted")]), s.remove key) := by
          simp only [answer, hb, hs, ha]
        rw [handle_of_ok he hans]
        exact .changed (.removed he (by simp [hs]))
      · have hans : server.answer r.body (.session key action) s =
            (.ok (View.simulation key after), s.update key after) := by
          simp only [answer, hb, hs, ha]
        rw [handle_of_ok he hans]
        exact .changed (.commanded he hs hc hp)
      · have hans : server.answer r.body (.session key action) s = (.ok value, s) := by
          simp only [answer, hb, hs, ha, Sessions.update_eq_self hs]
        rw [handle_of_ok he hans]
        exact .idle fun _ _ => commandTo_of_commandOf_eq_none he hc

end

/-- **Everything that can come of a request.** -/
theorem effect_handle (server : Server) (r : Request) (s : Sessions) :
    Effect server r s (server.handle r s) := by
  cases he : server.endpoint? r with
  | none => exact effect_of_kept (handle_of_none he) fun _ => by rw [commandTo, he]
  | some e =>
    cases e with
    | query q => exact effect_of_kept (handle_of_query he) fun _ => by rw [commandTo, he]
    | create => exact effect_create he
    | session key action => exact effect_session he

end Server

end PredictiveParsing
