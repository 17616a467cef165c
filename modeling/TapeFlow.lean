import TapeFlow.Capability
import TapeFlow.Check.Reachable
import TapeFlow.Check.Report
import TapeFlow.Check.Violation
import TapeFlow.Codec.Graph
import TapeFlow.Codec.Options
import TapeFlow.Codec.Source
import TapeFlow.Command
import TapeFlow.CommandLine
import TapeFlow.Compile
import TapeFlow.Error
import TapeFlow.File
import TapeFlow.Graph.Builder
import TapeFlow.Graph.Instruction
import TapeFlow.Graph.Listing
import TapeFlow.Graph.Module
import TapeFlow.Graph.Ty
import TapeFlow.Json.Lexeme
import TapeFlow.Json.Reader
import TapeFlow.Json.Shape
import TapeFlow.Json.Value
import TapeFlow.Json.Writer
import TapeFlow.Lowering.Event
import TapeFlow.Lowering.Loops
import TapeFlow.Lowering.Pass
import TapeFlow.Machine.Fault
import TapeFlow.Machine.Memory
import TapeFlow.Machine.Run
import TapeFlow.Machine.Step
import TapeFlow.Main
import TapeFlow.Options
import TapeFlow.Proofs.Action
import TapeFlow.Proofs.Brackets
import TapeFlow.Proofs.Building
import TapeFlow.Proofs.Calls
import TapeFlow.Proofs.Comments
import TapeFlow.Proofs.Computation
import TapeFlow.Proofs.ControlFlow
import TapeFlow.Proofs.Cost
import TapeFlow.Proofs.Counters
import TapeFlow.Proofs.Decoding
import TapeFlow.Proofs.Dominance
import TapeFlow.Proofs.Draft
import TapeFlow.Proofs.Emission
import TapeFlow.Proofs.EventLog
import TapeFlow.Proofs.Execution
import TapeFlow.Proofs.Footprint
import TapeFlow.Proofs.Handoff
import TapeFlow.Proofs.History
import TapeFlow.Proofs.Interpreter
import TapeFlow.Proofs.JsonGrammar
import TapeFlow.Proofs.JsonText
import TapeFlow.Proofs.Labels
import TapeFlow.Proofs.LoadStore
import TapeFlow.Proofs.Locations
import TapeFlow.Proofs.Lowering
import TapeFlow.Proofs.Memory
import TapeFlow.Proofs.MemorySafety
import TapeFlow.Proofs.Nesting
import TapeFlow.Proofs.Outcome
import TapeFlow.Proofs.PartialOptions
import TapeFlow.Proofs.Preservation
import TapeFlow.Proofs.Reachability
import TapeFlow.Proofs.Registers
import TapeFlow.Proofs.Resumption
import TapeFlow.Proofs.Rules
import TapeFlow.Proofs.Simulation
import TapeFlow.Proofs.Soundness
import TapeFlow.Proofs.Statistics
import TapeFlow.Proofs.StepLimit
import TapeFlow.Proofs.Symbols
import TapeFlow.Proofs.TapeCode
import TapeFlow.Proofs.Warnings
import TapeFlow.Proofs.WellFormed
import TapeFlow.Proofs.Widening
import TapeFlow.Source.Location
import TapeFlow.Source.Token
import TapeFlow.Tape.Layout
