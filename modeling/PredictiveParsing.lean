import PredictiveParsing.Main
import PredictiveParsing.Server
import PredictiveParsing.Proofs.Grammar.Derivation
import PredictiveParsing.Proofs.Grammar.Reachable
import PredictiveParsing.Proofs.Grammar.Validity
import PredictiveParsing.Proofs.Table.Cells
import PredictiveParsing.Proofs.Rewriting.Normalization
import PredictiveParsing.Proofs.Simulation.Recognition
import PredictiveParsing.Proofs.Simulation.Replay
import PredictiveParsing.Proofs.Sets.Remembered
import PredictiveParsing.Proofs.Simulation.Termination
import PredictiveParsing.Proofs.Rewriting.NormalForm
import PredictiveParsing.Proofs.Rewriting.Usage
import PredictiveParsing.Proofs.Grammar.Consistency
import PredictiveParsing.Proofs.Simulation.Invariant
import PredictiveParsing.Proofs.Simulation.Acceptance
import PredictiveParsing.Proofs.Table.Candidates
import PredictiveParsing.Proofs.Simulation.StackSymbols
import PredictiveParsing.Proofs.Server.Answers
import PredictiveParsing.Proofs.Simulation.Views
import PredictiveParsing.Proofs.Server.Isolation
import PredictiveParsing.Proofs.Sets.Solutions
import PredictiveParsing.Proofs.Server.Agreement
import PredictiveParsing.Proofs.Document.RoundTrip
import PredictiveParsing.Proofs.Rewriting.NewNames
import PredictiveParsing.Proofs.Rewriting.Collision
import PredictiveParsing.Proofs.Rewriting.Rounds
import PredictiveParsing.Proofs.Table.Recovery
import PredictiveParsing.Proofs.Table.Frame
import PredictiveParsing.Proofs.Sets.Log
import PredictiveParsing.Proofs.Grammar.Inference
import PredictiveParsing.Proofs.Document.Saving
import PredictiveParsing.Proofs.Report.ExitCode
import PredictiveParsing.Proofs.ParseTree.Dot
import PredictiveParsing.Proofs.Document.Displayed
import PredictiveParsing.Proofs.Table.Storing
