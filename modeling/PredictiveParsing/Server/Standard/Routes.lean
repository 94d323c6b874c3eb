import PredictiveParsing.Server.Framework
import PredictiveParsing.Text.Cut

/-
How paths are told apart.

* `endpointsAt` — the endpoints at a path, by method;
* `otherSpelling` — the path without the slashes at its end, or with one;
* `routeOf` — the endpoint for a method at a path.

Design notes:

* Paths are compared part by part and exactly, except that a line end behind
  the last part is passed over; behind the key of a simulation it belongs to
  the key.
-/
namespace PredictiveParsing.Server.Standard

open Endpoint

/-- The endpoints for an action on a simulation that is kept. -/
def endpointsOfAction (key : String) : (action : String) → List (String × Endpoint)
  | "step" => [("POST", session key .step)]
  | "back" => [("POST", session key .back)]
  | "rewind" => [("POST", session key .rewind)]
  | "run" => [("POST", session key .run)]
  | "tree" => [("GET", session key .tree)]
  | _ => []

/-- The endpoints for a simulation that is kept, or for an action on it. -/
def endpointsOfSession (key : String) : List String → List (String × Endpoint)
  | [] => [("GET", session key .look), ("DELETE", session key .delete)]
  | [action] => endpointsOfAction key action
  | _ => []

/-- The endpoints at the parts of a path, by method. -/
def endpointsOfParts : List String → List (String × Endpoint)
  | [""] => [("GET", query .index)]
  | ["health"] => [("GET", query .health)]
  | ["api", "grammar", "validate"] => [("POST", query .validate)]
  | ["api", "grammar", "normalize"] => [("POST", query .normalize)]
  | ["api", "grammar", "sets"] => [("POST", query .sets)]
  | ["api", "grammar", "table"] => [("POST", query .table)]
  | ["api", "grammar", "xml", "import"] => [("POST", query .importXml)]
  | ["api", "grammar", "xml", "export"] => [("POST", query .exportXml)]
  | ["api", "ll1"] => [("POST", query .parse)]
  | ["api", "simulations"] => [("POST", create)]
  | "api" :: "simulations" :: key :: rest => if key = "" then [] else endpointsOfSession key rest
  | _ => []

/-- A part without one line end behind it. -/
def withoutNewline (part : String) : String :=
  match part.toList.reverse with
  | '\n' :: cs => .ofList cs.reverse
  | _ => part

/-- The parts without the line end behind the last of them, unless that is the
key of a simulation. -/
def withoutLineEnd : List String → List String
  | ["api", "simulations", key] => ["api", "simulations", key]
  | parts =>
    match parts.reverse with
    | last :: before => (withoutNewline last :: before).reverse
    | [] => []

/-- The endpoints at a path, by method; none if the path is not known. -/
def endpointsAt (path : String) : List (String × Endpoint) :=
  match (Text.pieces '/' path.toList).map String.ofList with
  | "" :: parts => endpointsOfParts (withoutLineEnd parts)
  | _ => []

/-- A path without the slashes at its end, or with one if there is none. -/
def otherSpelling (path : String) : String :=
  match path.toList.reverse with
  | '/' :: cs => .ofList (cs.dropWhile (· == '/')).reverse
  | _ => path ++ "/"

/-- The response where nothing is known: a path that is known in its other
spelling is pointed to. -/
def strayResponse (path : String) : Response :=
  match endpointsAt (otherSpelling path) with
  | [] => ⟨404, detail "Not Found" []⟩
  | _ => ⟨307, .text ""⟩

/-- The endpoint for a method at a path. -/
def routeOf (method path : String) : Except Response Endpoint :=
  match endpointsAt path with
  | [] => .error (strayResponse path)
  | endpoints =>
    match endpoints.lookup method with
    | none => .error ⟨405, detail "Method Not Allowed" []⟩
    | some endpoint => .ok endpoint

end PredictiveParsing.Server.Standard
