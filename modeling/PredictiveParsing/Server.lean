import PredictiveParsing.Document.Xml
import PredictiveParsing.Grammar.Normalization
import PredictiveParsing.Grammar.Validation
import PredictiveParsing.Server.Framework
import PredictiveParsing.Server.Sessions
import PredictiveParsing.Server.View
import PredictiveParsing.Settings

/-
A server for grammars and simulations.

The server answers requests one after the other.  Most of them are answered
from what they carry; the others start a simulation, work on one that is kept,
or give it up.

* `Server` — settings, a name for each simulation, and a framework;
* `Server.answer` — what an endpoint answers, and the store afterwards;
* `Server.handle` — the response to a request, and the store afterwards;
* `answer_query_sessions` — questions leave the store alone.

Design notes:

* The body of a request is read before the simulation is looked for.
* An answer is sent when everything has been done.  If it cannot be sent, the
  request fails, and the store is as it was left.
* A request for everything at once computes the sets beforehand, so that its
  table rests on the sets that it shows.
-/
namespace PredictiveParsing

/-- What a server works with. -/
structure Server where
  settings : Settings := {}
  /-- The key of each simulation, by its number. -/
  naming : Nat → String
  framework : Server.Framework

namespace Server

/-- Why a request fails. -/
inductive Failure where
  /-- The body cannot be read. -/
  | unreadable (response : Response)
  /-- No simulation is kept under the key. -/
  | noSession (key : String)
  | fault (f : Fault)
  deriving Repr

/-! ### Failures -/

/-- The response to a fault. -/
def faultResponse (f : Fault) : Response :=
  match f with
  | .nameCollision n a => ⟨409, detail f.message [("name", .text n), ("antecedent", .text a)]⟩
  | .invalidGrammar ds => ⟨400, detail f.message [("errors", .list (ds.map View.diagnostic))]⟩
  | _ => ⟨400, detail f.message []⟩

variable (server : Server)

/-- A response that says what went wrong, unless that cannot be sent. -/
def failed (response : Response) : Response :=
  match server.framework.failureFlaw? response.body with
  | none => response
  | some message => ⟨400, detail message []⟩

/-- The response with an answer, unless that cannot be sent. -/
def sent (value : Value) : Response :=
  match server.framework.answerFlaw? value with
  | none => ⟨200, value⟩
  | some message => ⟨400, detail message []⟩

/-- The response to a failure. -/
def failureResponse : Failure → Response
  | .unreadable response => response
  | .noSession key => server.failed ⟨404, detail ("Unknown simulation '" ++ key ++ "'") []⟩
  | .fault f => server.failed (faultResponse f)

/-- What was read of a body, or the failure to read it. -/
def readable {α : Type} (r : Except Response α) : Except Failure α :=
  r.mapError .unreadable

/-- A result, or the failure that its fault is. -/
def unfaulty {α : Type} (r : Except Fault α) : Except Failure α :=
  r.mapError .fault

/-! ### Grammars -/

/-- Normalizes a grammar by the policy of the settings. -/
def normalized (g : Grammar) : Except Fault Normalization :=
  g.normalize server.settings.onCollision

/-- The grammar a source means, if it is valid; normalized if that is asked
for. -/
def prepared (source : GrammarSource) (normalizing : Bool) : Except Fault Grammar := do
  let g ← source.grammar
  let (problems, g) := g.validate
  if Diagnostic.hasErrors problems then .error (.invalidGrammar problems)
  else if normalizing then return (← server.normalized g).grammar
  else return g

/-- The prepared grammar and its table. -/
def preparedTable (o : TableOptions) : Except Fault (Grammar × Table) := do
  let g ← server.prepared o.source o.normalizing
  let (table, g) := g.buildTable o.functions o.cells
  return (g, table)

/-! ### Questions -/

/-- What is wrong with a grammar, and what normalization would do. -/
def validation (source : GrammarSource) : Except Fault Value := do
  let (problems, g) := (← source.grammar).validate
  return .object
    [("validity", .text g.validity.label), ("errors", .list (problems.map View.diagnostic)),
      ("needs_left_recursion_removal", .bool g.needsLeftRecursionRemoval),
      ("needs_left_factoring", .bool g.needsLeftFactoring)]

/-- A normalized grammar. -/
def normalization (source : GrammarSource) : Except Fault Value := do
  let g ← server.prepared source false
  let n ← server.normalized g
  return .object
    [("removed_left_recursion", .bool n.removedLeftRecursion),
      ("left_factored", .bool n.leftFactored), ("grammar", n.grammar.toDocument.toValue),
      ("productions", View.productions n.grammar)]

/-- The sets of a grammar, and the passes in which they were solved if these
were asked for. -/
structure SolvedSets where
  first : Family
  follow : Family
  passes : Option (List PassLog × List PassLog)

/-- The sets of a grammar, computed anew and noted. -/
def solvedSets (withWorking : Bool) (g : Grammar) : SolvedSets × Grammar :=
  if withWorking then
    let ((first, firstLog), g) := g.logFirst
    let ((follow, followLog), g) := g.logFollow (some first)
    (⟨first, follow, some (firstLog, followLog)⟩, g)
  else
    let (first, g) := g.computeFirst
    let (known, g) := g.knownFirst
    let (follow, g) := g.computeFollow known
    (⟨first, follow, none⟩, g)

/-- The fields for a grammar and its sets. -/
def setFields (g : Grammar) (s : SolvedSets) : List (String × Value) :=
  [("grammar", View.grammar g), ("first", View.sets s.first), ("follow", View.sets s.follow),
    ("working",
      match s.passes with
      | some (first, follow) => View.working first follow
      | none => .null)]

/-- The sets of a grammar. -/
def setsAnswer (o : SetsOptions) : Except Fault Value := do
  let g ← server.prepared o.source o.normalizing
  let (solved, g) := solvedSets o.withWorking g
  return .object (setFields g solved)

/-- The table of a grammar. -/
def tableAnswer (o : TableOptions) : Except Fault Value := do
  let (g, table) ← server.preparedTable o
  return .object [("grammar", View.grammar g), ("table", View.table g table)]

/-- The document in an XML text. -/
def imported (xml : String) : Except Fault Value := do
  return (← Grammar.load (.text xml)).toDocument.toValue

/-- The XML text of a grammar. -/
def exported (source : GrammarSource) : Except Fault Value := do
  return .object [("xml", .text (← source.grammar).toDocument.toXml)]

/-- Sets, table and one run, all at once. -/
def parseAnswer (o : ParseOptions) : Except Fault Value := do
  let g ← server.prepared o.table.source o.table.normalizing
  let (solved, g) := solvedSets o.withWorking g
  let (table, g) := g.buildTable o.table.functions o.table.cells
  let tokens := (Text.words o.tokens).filter (· ≠ "")
  let sim ← Simulation.start g table tokens
  let ran := sim.runWithin (server.settings.requestCeiling o.maxSteps)
  return .object
    (setFields g solved ++
      [("table", View.table g table), ("input", View.input tokens), ("result", View.result ran)])

/-- The page at the root. -/
def indexPage : String :=
  "<h2>LL(1) Predictive Parsing Simulator API</h2><p>POST <code>/api/ll1</code> with JSON: " ++
    "<code>\x7b\"tokens\": \"id = num + id ;\"\x7d</code></p>"

/-- The answer to a question. -/
def answerQuery (body : Option Value) : Query → Except Failure Value
  | .index => .ok (.text indexPage)
  | .health => .ok (.object [("status", .text "ok")])
  | .validate => readable (server.framework.readSource body) >>= (unfaulty <| validation ·)
  | .normalize =>
    readable (server.framework.readSource body) >>= (unfaulty <| server.normalization ·)
  | .sets => readable (server.framework.readSets body) >>= (unfaulty <| server.setsAnswer ·)
  | .table => readable (server.framework.readTable body) >>= (unfaulty <| server.tableAnswer ·)
  | .importXml => readable (server.framework.readXml body) >>= (unfaulty <| imported ·)
  | .exportXml => readable (server.framework.readSource body) >>= (unfaulty <| exported ·)
  | .parse => readable (server.framework.readParse body) >>= (unfaulty <| server.parseAnswer ·)

/-! ### Simulations -/

/-- A machine on the table of the prepared grammar, before its first step. -/
def started (o : SimulationOptions) : Except Fault (Grammar × Table × Simulation) := do
  let (g, table) ← server.preparedTable o.table
  let sim ← Simulation.start g table (Text.words o.tokens)
  return (g, table, sim)

/-- Starts a simulation from what a request carries. -/
def created (body : Option Value) : Except Failure (Grammar × Table × Simulation) := do
  let o ← readable (server.framework.readSimulation body)
  unfaulty (server.started o)

/-- The answer to the creation of a simulation. -/
def createdAnswer (key : String) (g : Grammar) (table : Table) (sim : Simulation) : Value :=
  .object (View.simulationFields key sim ++ [("table", View.table g table)])

/-- The answer to an action on a simulation, and the simulation afterwards;
none if it is given up. -/
def act (key : String) (ceiling : Option Int) (sim : Simulation) :
    SessionAction → Value × Option Simulation
  | .look => (View.simulation key sim, some sim)
  | .delete => (.object [("status", .text "deleted")], none)
  | .step =>
    let sim := sim.step.2
    (View.simulation key sim, some sim)
  | .back =>
    let sim := sim.stepBack.2
    (View.simulation key sim, some sim)
  | .rewind =>
    let sim := sim.rewind.2
    (View.simulation key sim, some sim)
  | .run =>
    let sim := sim.runWithin (server.settings.requestCeiling ceiling)
    (View.simulation key sim, some sim)
  | .tree =>
    let t := sim.parseTree
    (.object [("tree", View.tree t), ("dot", .text (t.dot ParseTree.defaultTitle))], some sim)

/-- The ceiling that a request for an action carries; only runs carry one. -/
def ceilingOf (body : Option Value) : SessionAction → Except Failure (Option Int)
  | .run => readable (server.framework.readRun body)
  | _ => .ok none

/-- What an endpoint answers, and the store afterwards. -/
def answer (body : Option Value) (endpoint : Endpoint) (sessions : Sessions) :
    Except Failure Value × Sessions :=
  match endpoint with
  | .query q => (server.answerQuery body q, sessions)
  | .create =>
    match server.created body with
    | .error failure => (.error failure, sessions)
    | .ok (g, table, sim) =>
      let (key, sessions) := sessions.add server.settings.maxSessions server.naming sim
      (.ok (createdAnswer key g table sim), sessions)
  | .session key action =>
    match server.ceilingOf body action with
    | .error failure => (.error failure, sessions)
    | .ok ceiling =>
      match sessions.get? key with
      | none => (.error (.noSession key), sessions)
      | some sim =>
        match server.act key ceiling sim action with
        | (value, some sim) => (.ok value, sessions.update key sim)
        | (value, none) => (.ok value, sessions.remove key)

/-- Questions leave the store alone. -/
@[simp] theorem answer_query_sessions (body : Option Value) (q : Query) (sessions : Sessions) :
    (server.answer body (.query q) sessions).2 = sessions := rfl

/-! ### Requests -/

/-- The response to a request, and the store afterwards. -/
def handle (r : Request) (sessions : Sessions) : Response × Sessions :=
  match server.framework.route r.method r.path with
  | .error response => (response, sessions)
  | .ok endpoint =>
    match server.answer r.body endpoint sessions with
    | (.ok value, sessions) => (server.sent value, sessions)
    | (.error failure, sessions) => (server.failureResponse failure, sessions)

/-- The responses to requests, one after the other, each with the number of
simulations that were alive after it. -/
def handleAll : List Request → Sessions → List (Response × Nat)
  | [], _ => []
  | r :: rs, sessions =>
    let (response, sessions) := server.handle r sessions
    (response, sessions.size) :: handleAll rs sessions

end Server

end PredictiveParsing
