import FlowGraph.Command
import FlowGraph.Command.Error
import FlowGraph.Command.Flag
import FlowGraph.Command.Format
import FlowGraph.Command.Run
import FlowGraph.Consistency
import FlowGraph.Document
import FlowGraph.Document.Build
import FlowGraph.Document.Error
import FlowGraph.Document.Listing
import FlowGraph.Document.OfFunc
import FlowGraph.Document.Read
import FlowGraph.Document.Write
import FlowGraph.Fault
import FlowGraph.Files
import FlowGraph.Func
import FlowGraph.Func.Dot
import FlowGraph.Func.Dump
import FlowGraph.Func.Reachable
import FlowGraph.KeyMap
import FlowGraph.Level
import FlowGraph.Log
import FlowGraph.Main
import FlowGraph.Op
import FlowGraph.Options
import FlowGraph.Options.Load
import FlowGraph.Pass
import FlowGraph.Reach
import FlowGraph.Sink
import FlowGraph.Snapshot
import FlowGraph.Snapshot.Wire
import FlowGraph.Stats
import FlowGraph.Stats.Table
import FlowGraph.Text
import FlowGraph.Text.Base64
import FlowGraph.Text.Bool
import FlowGraph.Text.Decimal
import FlowGraph.Text.Number
import FlowGraph.Text.Printable
import FlowGraph.Text.Quoted
import FlowGraph.Text.Utf8
import FlowGraph.Threading
import FlowGraph.Walk
import FlowGraph.Work
import FlowGraph.Yaml.Char
import FlowGraph.Yaml.Decode
import FlowGraph.Yaml.Error
import FlowGraph.Yaml.Node
import FlowGraph.Yaml.Node.OfTokens
import FlowGraph.Yaml.Scalar
import FlowGraph.Yaml.Token
import FlowGraph.Yaml.Token.Scalar
import FlowGraph.Yaml.Token.Scan
import FlowGraph.Yaml.Write
import FlowGraph.Proofs.Acceptance
import FlowGraph.Proofs.BreadthFirst
import FlowGraph.Proofs.Chain
import FlowGraph.Proofs.Consistency
import FlowGraph.Proofs.Contents
import FlowGraph.Proofs.ControlFlow
import FlowGraph.Proofs.Definitions
import FlowGraph.Proofs.DepthFirst
import FlowGraph.Proofs.Distinct
import FlowGraph.Proofs.Drawing
import FlowGraph.Proofs.Dump
import FlowGraph.Proofs.DumpLimit
import FlowGraph.Proofs.Edges
import FlowGraph.Proofs.Elementwise
import FlowGraph.Proofs.Ensures
import FlowGraph.Proofs.Exact
import FlowGraph.Proofs.Export
import FlowGraph.Proofs.Files
import FlowGraph.Proofs.Frame
import FlowGraph.Proofs.Idempotence
import FlowGraph.Proofs.Lawful
import FlowGraph.Proofs.Lens
import FlowGraph.Proofs.Loaded
import FlowGraph.Proofs.Lookup
import FlowGraph.Proofs.Matching
import FlowGraph.Proofs.Names
import FlowGraph.Proofs.Onlooker
import FlowGraph.Proofs.Outcome
import FlowGraph.Proofs.OutputFile
import FlowGraph.Proofs.Parents
import FlowGraph.Proofs.PhiMerge
import FlowGraph.Proofs.Phis
import FlowGraph.Proofs.Portable
import FlowGraph.Proofs.Reachability
import FlowGraph.Proofs.Reached
import FlowGraph.Proofs.Reload
import FlowGraph.Proofs.RoundTrip
import FlowGraph.Proofs.Safety
import FlowGraph.Proofs.Search
import FlowGraph.Proofs.Session
import FlowGraph.Proofs.ShortCircuit
import FlowGraph.Proofs.Slots
import FlowGraph.Proofs.Snapshot
import FlowGraph.Proofs.Statistics
import FlowGraph.Proofs.Structure
import FlowGraph.Proofs.Termination
import FlowGraph.Proofs.Threading.Bypass
import FlowGraph.Proofs.Threading.Guard
import FlowGraph.Proofs.Threading.Intact
import FlowGraph.Proofs.Threading.Invariant
import FlowGraph.Proofs.Threading.Merge
import FlowGraph.Proofs.Threading.Parametric
import FlowGraph.Proofs.Threading.Pass
import FlowGraph.Proofs.Threading.Reference
import FlowGraph.Proofs.Threading.Simplify
import FlowGraph.Proofs.Threading.Step
import FlowGraph.Proofs.Threading.Watch
import FlowGraph.Proofs.ValueFlow
import FlowGraph.Proofs.Wire
