/-
What a server can be asked for, and where.

* `Query` — questions whose answer is in the request;
* `SessionAction` — what can be done with a simulation that is kept;
* `Endpoint` — all that can be asked for;
* `Endpoint.method`, `Endpoint.path` — where each is declared.
-/
namespace PredictiveParsing.Server

/-- Questions whose answer is in the request. -/
inductive Query where
  | index
  | health
  | validate
  | normalize
  | sets
  | table
  | importXml
  | exportXml
  | parse
  deriving DecidableEq, Repr

/-- What can be done with a simulation that is kept. -/
inductive SessionAction where
  | look
  | delete
  | step
  | back
  | rewind
  | run
  | tree
  deriving DecidableEq, Repr

/-- All that a server can be asked for. -/
inductive Endpoint where
  | query (q : Query)
  /-- Start a simulation and keep it. -/
  | create
  | session (key : String) (action : SessionAction)
  deriving DecidableEq, Repr

namespace Endpoint

/-- The method for an endpoint. -/
def method : Endpoint → String
  | query .index | query .health => "GET"
  | query _ | create => "POST"
  | session _ .look | session _ .tree => "GET"
  | session _ .delete => "DELETE"
  | session _ _ => "POST"

/-- The path of a question. -/
def queryPath : Query → String
  | .index => "/"
  | .health => "/health"
  | .validate => "/api/grammar/validate"
  | .normalize => "/api/grammar/normalize"
  | .sets => "/api/grammar/sets"
  | .table => "/api/grammar/table"
  | .importXml => "/api/grammar/xml/import"
  | .exportXml => "/api/grammar/xml/export"
  | .parse => "/api/ll1"

/-- What stands behind the key of a simulation in the path of an action. -/
def actionPath : SessionAction → String
  | .look | .delete => ""
  | .step => "/step"
  | .back => "/back"
  | .rewind => "/rewind"
  | .run => "/run"
  | .tree => "/tree"

/-- The path of an endpoint. -/
def path : Endpoint → String
  | query q => queryPath q
  | create => "/api/simulations"
  | session key action => "/api/simulations/" ++ key ++ actionPath action

/-- Whether an endpoint can be told from its path: a key that is empty or has a
slash cannot stand in one. -/
def IsAddressable : Endpoint → Prop
  | session key _ => key ≠ "" ∧ '/' ∉ key.toList
  | _ => True

end Endpoint

end PredictiveParsing.Server
