import WhileSmt.FlowGraph.Printer

/-!
The options of a run, and which of them do not go together.
-/

namespace WhileSmt.Cli

/-- How far a run goes; every mode includes the stages of those before it. -/
inductive Mode where
  | ast
  | ssa
  | optimize
  | cfg
  | smt
  | verify
  | equiv
deriving DecidableEq

/-- A mode as it is named among the arguments. -/
def Mode.name : Mode → String
  | ast => "ast"
  | ssa => "ssa"
  | optimize => "optimize"
  | cfg => "cfg"
  | smt => "smt"
  | verify => "verify"
  | equiv => "equiv"

/-- The modes in the order of the stages they stop at. -/
def Mode.all : List Mode :=
  [.ast, .ssa, .optimize, .cfg, .smt, .verify, .equiv]

/-- The mode with a name. -/
def Mode.ofName? (name : String) : Option Mode :=
  Mode.all.find? fun mode => mode.name = name

/-- The number of stages of a run. -/
def Mode.stages : Mode → Nat
  | ast => 1
  | ssa => 2
  | optimize => 3
  | cfg => 4
  | smt => 5
  | verify | equiv => 6

/-- Whether a run goes on to the solver and ends with a verdict. -/
def Mode.asksSolver : Mode → Bool
  | verify | equiv => true
  | _ => false

/-- A format of flow graphs as it is named among the arguments. -/
def formatName : GraphFormat → String
  | .text => "text"
  | .dot => "dot"
  | .json => "json"
  | .summary => "summary"

/-- The format with a name. -/
def formatOfName? (name : String) : Option GraphFormat :=
  [GraphFormat.text, .dot, .json, .summary].find? fun format => formatName format = name

/-- The seconds that a solver has unless the options say otherwise. -/
def defaultTimeout : Nat := 30

/-- The solver that is started unless the options name another. -/
def defaultSolver : String := "z3"

/-- What a run is asked to do: the files that it reads and writes, how far it goes, and how much it
prints. -/
structure Options where
  input : String
  against : Option String := none
  mode : Mode := .verify
  output : Option String := none
  outputDir : Option String := none
  format : GraphFormat := .text
  unroll : Nat := 1
  timeout : Nat := defaultTimeout
  solver : String := defaultSolver
  noOptimize : Bool := false
  encodeOptimized : Bool := false
  showSpans : Bool := false
  verbose : Bool := false
  quiet : Bool := false
  noColor : Bool := false

/-! ## Options that do not go together -/

/-- The ways in which options can contradict each other or the mode. -/
inductive Misuse where
  | quietAndVerbose
  | missingSecond
  | needlessSecond
  | unroll
  | format
  | outputDir
  | timeout
  | solver
  | noOptimize
  | encodeOptimized
  | encodeUnoptimized
deriving DecidableEq

/-- What is said about options that do not go together. -/
def Misuse.message : Misuse → String
  | quietAndVerbose => "Cannot use both --quiet and --verbose flags"
  | missingSecond => "equiv mode needs a second program: pass it with --against"
  | needlessSecond => "--against is only valid for smt and equiv modes"
  | unroll => "--unroll must be at least 1"
  | format => "--format is only valid for cfg mode"
  | outputDir => "--output-dir is only valid for verify and equiv modes"
  | timeout => "--timeout is only valid for verify and equiv modes"
  | solver => "--solver is only valid for verify and equiv modes"
  | noOptimize => "--no-optimize is only valid for modes that include optimization"
  | encodeOptimized => "--encode-optimized is only valid for smt, verify and equiv modes"
  | encodeUnoptimized => "Cannot use both --encode-optimized and --no-optimize"

namespace Options

/-- Whether the options have a given fault. -/
def has (o : Options) : Misuse → Bool
  | .quietAndVerbose => o.quiet && o.verbose
  | .missingSecond => o.mode = .equiv && o.against.isNone
  | .needlessSecond => o.mode ≠ .smt && o.mode ≠ .equiv && o.against.isSome
  | .unroll => o.unroll < 1
  | .format => o.format ≠ .text && o.mode ≠ .cfg
  | .outputDir => !o.mode.asksSolver && o.outputDir.isSome
  | .timeout => !o.mode.asksSolver && o.timeout ≠ defaultTimeout
  | .solver => !o.mode.asksSolver && o.solver ≠ defaultSolver
  | .noOptimize => o.noOptimize && o.mode.stages < 3
  | .encodeOptimized => o.encodeOptimized && o.mode.stages < 5
  | .encodeUnoptimized => o.encodeOptimized && o.noOptimize

/-- The faults in the order in which they are reported. -/
def faults : List Misuse :=
  [.quietAndVerbose, .missingSecond, .needlessSecond, .unroll, .format, .outputDir, .timeout,
   .solver, .noOptimize, .encodeOptimized, .encodeUnoptimized]

/-- The first fault of the options. -/
def misuse? (o : Options) : Option Misuse :=
  faults.find? o.has

end Options

/-! ## How much a run prints -/

/-- How much a run prints. -/
inductive Level where
  | quiet
  | normal
  | verbose
deriving DecidableEq

/-- The levels in their order. -/
def Level.rank : Level → Nat
  | quiet => 0
  | normal => 1
  | verbose => 2

/-- Whether a run at this level prints what is meant for the other. -/
def Level.shows (level other : Level) : Bool :=
  other.rank ≤ level.rank

/-- Quiet wins over verbose. -/
def Options.level (o : Options) : Level :=
  if o.quiet then .quiet else if o.verbose then .verbose else .normal

end WhileSmt.Cli
