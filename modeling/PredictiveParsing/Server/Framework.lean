import PredictiveParsing.Server.Endpoint
import PredictiveParsing.Server.Payload

/-
What a server leaves to its framework.

A framework finds the endpoint of a request, reads what the request carries, and
sends the answers.  It is handed in, and nothing is known of it but what is
assumed by name.

* `Request`, `Response` — what comes in and what goes out;
* `Framework` — how endpoints are found, bodies read and answers sent;
* `Framework.Finds` — endpoints are found where they are declared;
* `Framework.ReadsAlike` — what several requests have in common is read alike;
* `Framework.Sends` — flat answers of encodable texts are sent.

Design notes:

* Not every text can be encoded: a request may write the unpaired half of a
  surrogate pair, and no answer can repeat it.
-/
namespace PredictiveParsing.Server

/-- A request. -/
structure Request where
  method : String
  path : String
  /-- The body, if there is one. -/
  body : Option Value := none
  deriving Repr

/-- The request for an endpoint. -/
def Endpoint.request (e : Endpoint) (body : Option Value := none) : Request :=
  ⟨e.method, e.path, body⟩

/-- A response. -/
structure Response where
  status : Nat
  body : Value
  deriving Repr

/-- A body that says what went wrong, with further fields. -/
def detail (message : String) (more : List (String × Value)) : Value :=
  .object (("detail", .text message) :: more)

/-- What a server leaves to the framework that it is written for.  A response
stands for what the framework answers by itself. -/
structure Framework where
  /-- The endpoint for a method at a path. -/
  route : (method path : String) → Except Response Endpoint
  readSource : Option Value → Except Response GrammarSource
  readSets : Option Value → Except Response SetsOptions
  readTable : Option Value → Except Response TableOptions
  readParse : Option Value → Except Response ParseOptions
  readSimulation : Option Value → Except Response SimulationOptions
  /-- The ceiling of a run. -/
  readRun : Option Value → Except Response (Option Int)
  /-- The XML text of a grammar file. -/
  readXml : Option Value → Except Response String
  /-- Whether a character can be sent. -/
  encodes : Char → Bool
  /-- Why an answer cannot be sent, if it cannot. -/
  answerFlaw? : Value → Option String
  /-- Why the body of a failure cannot be sent, if it cannot. -/
  failureFlaw? : Value → Option String

namespace Framework

variable (f : Framework)

/-- Every endpoint is found where it is declared. -/
def Finds : Prop :=
  ∀ e : Endpoint, e.IsAddressable → f.route e.method e.path = .ok e

/-- The fields that a request has in common with the request for everything at
once are read from the same body as the same. -/
structure ReadsAlike : Prop where
  simulation : ∀ {body o}, f.readParse body = .ok o → f.readSimulation body = .ok ⟨o.table, o.tokens⟩
  run : ∀ {body o}, f.readParse body = .ok o → f.readRun body = .ok o.maxSteps

/-- Whether every text in a value can be sent. -/
def IsEncodable (v : Value) : Prop :=
  ∀ s ∈ v.textsIn, s.toList.all f.encodes = true

/-- How deep an answer may be nested. -/
def deepestAnswer : Nat := 256

/-- An answer is sent if it is not nested too deep and its texts can be. -/
def Sends : Prop :=
  ∀ v : Value, v.depth ≤ deepestAnswer → f.IsEncodable v → f.answerFlaw? v = none

end Framework

end PredictiveParsing.Server
