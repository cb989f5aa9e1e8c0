import WhileSmt.Cli.Arguments
import WhileSmt.Cli.Clock
import WhileSmt.Cli.Console
import WhileSmt.Cli.Host
import WhileSmt.Cli.Memory
import WhileSmt.Cli.Options
import WhileSmt.Cli.Run
import WhileSmt.Cli.Usage
import WhileSmt.Cli.Verifier
import WhileSmt.Diagnostic
import WhileSmt.Expr.Basic
import WhileSmt.Expr.Parser
import WhileSmt.FlowGraph.Basic
import WhileSmt.FlowGraph.Printer
import WhileSmt.Main
import WhileSmt.Names
import WhileSmt.Optimize.Constants
import WhileSmt.Optimize.DeadCode
import WhileSmt.Optimize.Fold
import WhileSmt.Optimize.Rounds
import WhileSmt.Program.Basic
import WhileSmt.Program.Parser
import WhileSmt.Program.Printer
import WhileSmt.Program.Segment
import WhileSmt.Proofs.Legible
import WhileSmt.Proofs.Meaning
import WhileSmt.Proofs.Run
import WhileSmt.Smt.Encode
import WhileSmt.Smt.Script
import WhileSmt.Smt.Sexp
import WhileSmt.Smt.Term
import WhileSmt.Solver.Answer
import WhileSmt.Ssa.Basic
import WhileSmt.Ssa.Numbering
import WhileSmt.Ssa.Printer
import WhileSmt.Text.Blank
import WhileSmt.Text.Decimal
import WhileSmt.Text.Hidden
import WhileSmt.Text.Json
import WhileSmt.Text.Lines
import WhileSmt.Text.Quoted
import WhileSmt.Text.Styled
import WhileSmt.Verdict
import WhileSmt.Proofs.Ssa.Scope
import WhileSmt.Proofs.Ssa.Order
import WhileSmt.Proofs.Ssa.Step
import WhileSmt.Proofs.Ssa.Derivation
import WhileSmt.Proofs.Ssa.Prepared
import WhileSmt.Proofs.Ssa.WellFormed
import WhileSmt.Proofs.Ssa.Simulation
import WhileSmt.Proofs.Integers
import WhileSmt.Proofs.Ssa.Execution
import WhileSmt.Proofs.Smt.Semantics
import WhileSmt.Proofs.Ssa.VersionText
import WhileSmt.Proofs.Ssa.Listing
import WhileSmt.Proofs.Ssa.LoopFree
import WhileSmt.Proofs.Smt.Provenance
import WhileSmt.Proofs.Smt.Exactness
import WhileSmt.Proofs.Optimize.Constants
import WhileSmt.Proofs.Optimize.DeadCode
import WhileSmt.Proofs.Optimize.Rounds
import WhileSmt.Proofs.Smt.Equivalence
import WhileSmt.Proofs.Optimize.Outputs
import WhileSmt.Proofs.Traversal
import WhileSmt.Proofs.Smt.PassingRuns
import WhileSmt.Proofs.Program.RoundTrip
import WhileSmt.Proofs.Program.Conservation
import WhileSmt.Proofs.Expr.Conservation
import WhileSmt.Proofs.Smt.SexpReading
import WhileSmt.Proofs.Smt.SexpBalance
import WhileSmt.Proofs.Solver.Models
import WhileSmt.Proofs.Verdict
import WhileSmt.Proofs.Smt.Lines
import WhileSmt.Proofs.Smt.Separation
import WhileSmt.Proofs.Ssa.Definitions
import WhileSmt.Proofs.Smt.Outputs
import WhileSmt.Proofs.Expr.Parts
import WhileSmt.Proofs.Optimize.NormalForm
import WhileSmt.Proofs.Optimize.Settling
import WhileSmt.Proofs.Smt.Logic
import WhileSmt.Proofs.Smt.Consistency
import WhileSmt.Proofs.Smt.SortCheck
import WhileSmt.Proofs.Smt.Declarations
import WhileSmt.Proofs.Optimize.Answers
import WhileSmt.Proofs.Cli.Calendar
import WhileSmt.Proofs.Cli.Memory
import WhileSmt.Proofs.Cli.Runs
import WhileSmt.Proofs.Smt.Commands
import WhileSmt.Proofs.Expr.Boundary
import WhileSmt.Proofs.Program.Composition
import WhileSmt.Proofs.Program.Parsed
import WhileSmt.Proofs.Program.Positions
import WhileSmt.Proofs.Optimize.Frame
import WhileSmt.Proofs.Optimize.Liveness
import WhileSmt.Proofs.Ssa.Placement
import WhileSmt.Proofs.Ssa.Density
import WhileSmt.Proofs.Ssa.Statements
import WhileSmt.Proofs.CountingLoops
import WhileSmt.Proofs.FlowGraph.SpanningTree
import WhileSmt.Proofs.FlowGraph.LoopTree
import WhileSmt.Proofs.Optimize.Limits
import WhileSmt.Proofs.FlowGraph.Labels
