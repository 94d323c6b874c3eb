import PredictiveParsing.Server.Standard.Bodies
import PredictiveParsing.Server.Standard.Rendering
import PredictiveParsing.Server.Standard.Routes

/-
The framework that servers are usually run with.
-/
namespace PredictiveParsing.Server

open Standard

/-- A framework that compares paths part by part, reads bodies leniently and
sends answers as texts of characters. -/
def Framework.standard : Framework where
  route := routeOf
  readSource := readWith sourceOfFields
  readSets := readWith setsOfFields
  readTable := readWith tableOfFields
  readParse := readWith parseOfFields
  readSimulation := readWith simulationOfFields
  readRun := readWith maxStepsOfFields
  readXml := readWith xmlOfFields
  encodes := fun c => !isHalf c
  answerFlaw? := flaw? deepestAnswer
  failureFlaw? := Standard.failureFlaw?

end PredictiveParsing.Server
