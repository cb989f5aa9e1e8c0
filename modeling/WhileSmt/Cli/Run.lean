import WhileSmt.Cli.Console
import WhileSmt.Cli.Host
import WhileSmt.Cli.Verifier
import WhileSmt.Optimize.Rounds
import WhileSmt.Program.Parser
import WhileSmt.Ssa.Numbering
import WhileSmt.Ssa.Printer
import WhileSmt.Text.Quoted

/-!
A run from its options to its exit code. The stages follow each other up to the one that the mode
asks for; that stage prints its product, or writes it to a file. A run that asks the solver ends
with a verdict. The exit code is zero for success, one for an error and two for a negative verdict.
-/

namespace WhileSmt.Cli

/-! ## Errors -/

/-- Why a run stops before its end. -/
inductive RunError where
  | unreadable (path : String) (error : FileError)
  | parsing
  | numbering
  | cannotCreate (path : String) (error : FileError)
  | saving (error : SaveError)

/-- What is said about an error that stops a run. -/
def RunError.message : RunError → String
  | unreadable path error => "Failed to read file " ++ Text.quoted path ++ ": " ++ error.message
  | parsing => "Parsing failed"
  | numbering => "SSA conversion failed"
  | cannotCreate path error =>
    "Failed to create file " ++ Text.quoted path ++ ": " ++ error.message
  | saving error => "Verification error: " ++ error.message

/-! ## Summaries of the stages -/

/-- How many statements of each kind were read. -/
def programSummary (p : Program) : String :=
  let counts := Block.counts p.statements
  Text.natural p.statements.length ++ " statements (" ++
    Text.natural counts.assignments ++ " assignments, " ++
    Text.natural counts.branches ++ " branches, " ++
    Text.natural counts.loops ++ " loops, " ++
    Text.natural counts.assertions ++ " assertions)"

/-- What the optimizer did to a list of `before` instructions. -/
def optimizedSummary (before : Nat) (o : Optimized) : String :=
  let applied := o.applications.toList.map fun (pass, n) => pass ++ " x" ++ Text.natural n
  Text.natural before ++ " -> " ++ Text.natural o.code.length ++ " instructions in " ++
    Text.natural o.rounds ++ (if o.rounds = 1 then " iteration" else " iterations") ++
    if applied.isEmpty then "" else " (" ++ ", ".intercalate applied ++ ")"

/-- The size of a flow graph. -/
def graphSummary (g : FlowGraph) : String :=
  Text.natural g.labels.length ++ " nodes, " ++ Text.natural g.edges.length ++ " edges"

/-- The logic of a script and how much it declares and asserts. -/
def scriptSummary (s : Script) : String :=
  "logic " ++ s.logic.name ++ ", " ++ Text.natural s.declarations.length ++ " declarations, " ++
    Text.natural s.assertionCount ++ " assertions"

/-! ## The stages -/

/-- A source text and the name under which messages speak of it. -/
structure Source where
  label : String
  text : String

/-- A run: its options, and the surroundings that it runs in. -/
structure Session (m : Type → Type) where
  host : Host m
  options : Options

namespace Session

variable {m : Type → Type} [Monad m] (s : Session m)

/-- How the run prints. -/
def console : Console where
  level := s.options.level
  colors := s.host.colors && !s.options.noColor

/-- Prints what is meant for runs of some level. -/
def say (level : Level) (text : String) : m Unit :=
  if s.options.level.shows level then s.host.out text else pure ()

/-- Announces a stage. -/
def start (stage : Stage) : m Unit :=
  s.say .normal (s.console.stageStart stage s.options.mode.stages)

/-- Reports that the stage went well. -/
def succeed : m Unit :=
  s.say .normal s.console.stageSuccess

/-- Reports that the stage failed. -/
def fail : m Unit :=
  s.say .normal s.console.stageError

/-- Reports that no stage follows. -/
def abort : m Unit :=
  s.say .normal Console.aborting

/-- What there is to say about each source after a stage. -/
def detailItems (sources : List Source) (values : List String) : m Unit :=
  (sources.zip values).forM fun (source, value) =>
    s.say .verbose (s.console.detailItem source.label value)

/-- Reads a source from a file. -/
def readSource (path : String) : ExceptT RunError m Source := do
  match ← s.host.readText path with
  | .ok text => return { label := path, text := text }
  | .error e => throw (.unreadable path e)

/-- Prints the product of the last stage, or writes it to the file that the options name. -/
def finish (text : String) : ExceptT RunError m (Option Verdict) := do
  match s.options.output with
  | none =>
    s.host.out text
    return none
  | some path =>
    s.say .normal (s.console.writing path)
    match ← (s.host.writeText path text : m (Except FileError Unit)) with
    | .ok _ => return none
    | .error e => throw (.cannotCreate path e)

/-- Reads the program in a source. What is wrong with it is shown in its text. -/
def parse (source : Source) : ExceptT RunError m Program := do
  match Program.parse source.text with
  | .ok p => return p
  | .error e =>
    s.fail
    s.host.err (s.console.error "" (source.label ++ " could not be parsed"))
    s.host.err (e.diagnostic.report source.text ++ "\n")
    s.abort
    throw .parsing

/-- Numbers the names of a program. -/
def number (source : Source) (p : Program) : ExceptT RunError m SsaForm := do
  match p.toSsa with
  | .ok form => return form
  | .error e =>
    s.fail
    s.host.err (e.diagnostic.report source.text ++ "\n")
    s.abort
    throw .numbering

/-- What the optimizer makes of instructions, unless the options turn it off. -/
def optimized (code : Code) : Optimized :=
  if s.options.noOptimize then { code := code }
  else Code.optimizeWith Pass.all roundLimit code

/-- The question about the encoded instructions of one program or two. -/
def question : List Code → Question
  | first :: second :: _ => .equivalence first second
  | [first] => .assertions first
  | [] => .assertions []

/-- Asks the solver that the options name. -/
def ask (script : String) : m (Except SolverError Answer) := do
  let seconds := s.options.timeout
  let arguments := ["-in", "-smt2", "-T:" ++ Text.natural seconds]
  match ← s.host.runProgram s.options.solver arguments script with
  | .ok output => return Answer.parse output.out.toList output.err.toList seconds
  | .error e =>
    return .error (.spawn ("failed to execute " ++ s.options.solver ++ ": " ++ e.message))

/-- The verifier that the options describe. -/
def verifier : Verifier m where
  archive := s.options.outputDir.map fun directory =>
    { directory := directory, makeDirs := s.host.makeDirs, writeText := s.host.writeText,
      now := s.host.now }
  ask := s.ask

/-- Prints a report, after the file that its script was saved in. -/
def present (report : Report) : m Unit := do
  s.succeed
  report.savedTo.forM fun path => s.say .normal (s.console.writing path)
  s.host.out (s.console.result report)

/-- Answers a question and prints the result. -/
def solve (q : Question) : ExceptT RunError m (Option Verdict) := do
  s.start .solving
  s.say .verbose (s.console.detailItem "Solver" s.options.solver)
  match ← (s.verifier.check q : m (Except SaveError Report)) with
  | .error e =>
    s.fail
    s.abort
    throw (.saving e)
  | .ok report =>
    s.present report
    return some report.verdict

/-- The sources of the run: one that has been read, and perhaps one to compare it with. -/
def sources (first : Source) : ExceptT RunError m (List Source) := do
  match s.options.against with
  | none => return [first]
  | some path => return [first, ← s.readSource path]

/-- The first stage. -/
def parseAll (sources : List Source) : ExceptT RunError m (List Program) := do
  s.start .parsing
  let programs ← sources.mapM s.parse
  s.succeed
  s.detailItems sources (programs.map programSummary)
  return programs

/-- The second stage. -/
def numberAll (sources : List Source) (programs : List Program) :
    ExceptT RunError m (List SsaForm) := do
  s.start .numbering
  let forms ← (sources.zip programs).mapM fun (source, p) => s.number source p
  s.succeed
  s.detailItems sources (forms.map fun form => Code.summary form.code)
  return forms

/-- The third stage. -/
def optimizeAll (sources : List Source) (forms : List SsaForm) : m (List Optimized) := do
  s.start .optimization
  let results := forms.map fun form => s.optimized form.code
  if s.options.noOptimize then
    s.say .normal (s.console.stageSkipped "skipped")
  else
    s.succeed
    s.detailItems sources ((forms.zip results).map fun (form, result) =>
      optimizedSummary form.code.length result)
  return results

/-- The fourth stage. -/
def drawAll (sources : List Source) (programs : List Program) : m (List FlowGraph) := do
  s.start .flowGraph
  let graphs := programs.map Program.flowGraph
  s.succeed
  s.detailItems sources (graphs.map graphSummary)
  return graphs

/-- The fifth stage. -/
def encode (codes : List Code) : m Question := do
  s.start .encoding
  let q := question codes
  s.succeed
  s.say .verbose (Console.detail (scriptSummary q.script))
  if 1 < s.options.unroll then
    s.say .normal (s.console.warning
      "loops are encoded by their phi nodes; --unroll has no effect on the script")
  return q

/-- All stages up to the one that the mode asks for. -/
def stages (first : Source) : ExceptT RunError m (Option Verdict) := do
  let o := s.options
  let sources ← s.sources first
  let programs ← s.parseAll sources
  if o.mode = .ast then
    return ← s.finish (String.join ((programs.take 1).map fun p =>
      if o.quiet then p.summary else p.outline o.showSpans))
  let forms ← s.numberAll sources programs
  if o.mode = .ssa then
    return ← s.finish (String.join ((forms.take 1).map fun form => form.listing o.verbose))
  let results ← s.optimizeAll sources forms
  if o.mode = .optimize then
    return ← s.finish (String.join ((results.take 1).map fun result =>
      Code.listing o.verbose result.code))
  let graphs ← s.drawAll sources programs
  if o.mode = .cfg then
    return ← s.finish (String.join ((graphs.take 1).map fun g => g.render o.verbose o.format))
  let q ← s.encode (if o.encodeOptimized then results.map Optimized.code
    else forms.map SsaForm.code)
  if o.mode = .smt then
    return ← s.finish q.script.text
  s.solve q

/-- A whole run, with its exit code. -/
def run : m Nat := do
  match s.options.misuse? with
  | some misuse =>
    s.host.err (s.console.error "" misuse.message)
    return 1
  | none =>
    match ← (s.readSource s.options.input).run with
    | .error e =>
      s.host.err (s.console.error "" e.message)
      return 1
    | .ok source =>
      match ← (s.stages source).run with
      | .ok (some verdict) => return if verdict.isPositive then 0 else 2
      | .ok none => return 0
      | .error e =>
        s.host.err (s.console.error "Pipeline execution failed: " e.message)
        return 1

end Session

end WhileSmt.Cli
