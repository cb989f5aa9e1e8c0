import WhileSmt.Cli.Arguments

/-!
What is printed instead of a run: help, the version, or what is wrong with the arguments.
-/

namespace WhileSmt.Cli

/-- The answer to a request for the version. -/
def versionText : String := "whilesmt 0.1.0\n"

/-- The answer to a request for help. -/
def helpText : String :=
  "Assertion and equivalence checking for small imperative programs\n\n" ++
  "Usage: whilesmt [OPTIONS] <INPUT>\n\n" ++
  "Arguments:\n" ++
  "  <INPUT>  Input source file\n\n" ++
  "Options:\n" ++
  "      --against <AGAINST>        Second program to compare against (smt and equiv modes)\n" ++
  "  -m, --mode <MODE>              ast, ssa, optimize, cfg, smt, verify or equiv\n" ++
  "                                 [default: verify]\n" ++
  "  -o, --output <OUTPUT>          Output file for the artifact of the selected stage\n" ++
  "      --output-dir <OUTPUT_DIR>  Directory where solver scripts are saved\n" ++
  "      --format <FORMAT>          text, dot, json or summary (cfg mode only) [default: text]\n" ++
  "      --unroll <UNROLL>          Loop unrolling depth handed to the encoder [default: 1]\n" ++
  "      --timeout <TIMEOUT>        Solver timeout in seconds [default: 30]\n" ++
  "      --solver <SOLVER>          Solver executable [default: z3]\n" ++
  "      --no-optimize              Skip optimization passes\n" ++
  "      --encode-optimized         Encode the optimized instructions\n" ++
  "      --show-spans               Show source spans in AST output\n" ++
  "  -v, --verbose                  Verbose output\n" ++
  "  -q, --quiet                    Quiet mode - minimal output\n" ++
  "      --no-color                 Disable colored output\n" ++
  "  -h, --help                     Print help\n" ++
  "  -V, --version                  Print version\n"

namespace UsageError

/-- What is printed instead of a run. -/
def text : UsageError → String
  | invalidValue => "error: an option has a value that it does not know\n"
  | valueValidation => "error: an option has a value that is not a number in its range\n"
  | unknownArgument => "error: there is an argument that is not known\n"
  | argumentConflict => "error: an option is given more than once\n"
  | missingArgument => "error: the input file is missing\n"
  | tooManyValues => "error: a flag is given a value\n"
  | help => helpText
  | version => versionText

/-- Whether the arguments ask for what is printed. -/
def isRequest : UsageError → Bool
  | help | version => true
  | _ => false

end UsageError

end WhileSmt.Cli
