import PredictiveParsing.Grammar.FreshName

/-
Settings, read from the variables of an environment.

* `Settings` — the settings with their defaults;
* `Settings.ofEnvironment` — the settings an environment gives;
* `Settings.policyFor` — the collision policy to use for a request;
* `ofEnvironment_nil` — an empty environment gives the defaults.

Design notes:

* Variables are trimmed, and one that is blank counts as not set.
* All unusable variables are reported together, in the order of the fields.
-/
namespace PredictiveParsing

/-- What can be set from outside. -/
structure Settings where
  /-- The ceiling of a run that is given none; without one it is unlimited. -/
  maxSteps : Option Int := none
  /-- What to do about a collision if the request does not say. -/
  onCollision : CollisionPolicy := .refuse
  logLevel : String := "INFO"
  /-- The ceiling of every run that is started by a request. -/
  httpMaxSteps : Int := 1000
  /-- How many simulations are kept for requests. -/
  maxSessions : Int := 100
  deriving DecidableEq, Repr

namespace Settings

/-- The fields with the names of their variables, in order. -/
def variableNames : List (String × String) :=
  [("max_steps", "LL1SIM_MAX_STEPS"), ("on_collision", "LL1SIM_ON_COLLISION"),
    ("log_level", "LL1SIM_LOG_LEVEL"), ("http_max_steps", "LL1SIM_HTTP_MAX_STEPS"),
    ("max_sessions", "LL1SIM_MAX_SESSIONS")]

/-- The fields that an environment sets. -/
def fieldsOf (environment : List (String × String)) : List (String × Value) :=
  variableNames.filterMap fun v =>
    match Text.trim ((environment.lookup v.2).getD "") with
    | "" => none
    | text => some (v.1, .text text)

/-- One of the two policies. -/
def readPolicy : Value → Checked CollisionPolicy
  | .text "raise" => .valid .refuse
  | .text "rename" => .valid .rename
  | v => .problem .notTheLiteral v

/-- The settings that fields give; a field left out has its default. -/
def ofFields (fields : List (String × Value)) : Checked Settings :=
  let default' : Settings := {}
  Settings.mk
    <$> Value.withDefault "max_steps" default'.maxSteps (some <$> Value.readInteger ·) fields
    <*> Value.withDefault "on_collision" default'.onCollision readPolicy fields
    <*> Value.withDefault "log_level" default'.logLevel Value.readText fields
    <*> Value.withDefault "http_max_steps" default'.httpMaxSteps Value.readInteger fields
    <*> Value.withDefault "max_sessions" default'.maxSessions Value.readInteger fields

/-- The settings that an environment gives. -/
def ofEnvironment (environment : List (String × String)) : Except Fault Settings :=
  (ofFields (fieldsOf environment)).toExcept.mapError .invalidFields

/-- An empty environment gives the defaults. -/
theorem ofEnvironment_nil : ofEnvironment [] = .ok {} := rfl

/-! ### What requests leave open -/

/-- The policy a request asks for, or that of the settings; these need to be
readable only if the request does not say. -/
def policyFor (settings : Except Fault Settings) :
    (requested : Option CollisionPolicy) → Except Fault CollisionPolicy
  | some policy => .ok policy
  | none => settings.map onCollision

/-- The ceiling a caller asks for, or that of the settings. -/
def ceilingFor (settings : Except Fault Settings) :
    (requested : Option Int) → Except Fault (Option Int)
  | some ceiling => .ok (some ceiling)
  | none => settings.map maxSteps

/-- The ceiling of a run started by a request: what it asks for, but no more
than the settings allow. -/
def requestCeiling (settings : Settings) (requested : Option Int) : Int :=
  match requested with
  | none => settings.httpMaxSteps
  | some ceiling => min ceiling settings.httpMaxSteps

end Settings

end PredictiveParsing
