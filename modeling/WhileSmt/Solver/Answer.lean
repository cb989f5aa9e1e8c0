import WhileSmt.Names
import WhileSmt.Smt.Sexp
import WhileSmt.Text.Decimal
import WhileSmt.Text.Lines

/-!
What a solver answers. `Model.parse` reads the integer constants of a model, and
`Answer.parse` reads a whole output: an answer on the first line, then a model.
-/

namespace WhileSmt

/-- Why there is no answer. -/
inductive SolverError where
  | spawn (message : String)
  | io (message : String)
  | timeout (seconds : Nat)
  | unknown
  | output (message : String)
deriving DecidableEq

/-- What is said about a solver that gave no answer. -/
def SolverError.message : SolverError → String
  | spawn message => "Spawn Error: " ++ message
  | io message => "IO Error: " ++ message
  | timeout seconds => "Solver timed out after " ++ Text.natural seconds ++ "s"
  | unknown => "Solver returned unknown"
  | output message => "Solver Error: " ++ message

/-- Values of constants. -/
abbrev Model := NameMap Int64

namespace Model

/-- An integer, or the negation of one. -/
def integer? : Sexp → Option Int64
  | .atom text => Text.readInt64? text.toList
  | .list [.atom "-", inner] => (integer? inner).bind fun n => Text.narrow? (-n.toInt)
  | _ => none

/-- The name and the value in `(define-fun name () Int value)`. -/
def definition? : Sexp → Option (String × Int64)
  | .list [.atom "define-fun", .atom name, .list [], .atom "Int", value] =>
    (integer? value).map fun n => (name, n)
  | _ => none

/-- Adds the integer definitions among some items; the last one for a name counts. -/
def addItems (m : Model) (items : List Sexp) : Model :=
  items.foldl (fun m item =>
    match definition? item with
    | some (name, n) => m.insert name n
    | none => m) m

/-- Adds what the S-expressions define. Atoms are passed over, and a list that reports an error
ends the reading. -/
def addAll (m : Model) : List Sexp → Except SolverError Model
  | [] => .ok m
  | .atom _ :: rest => addAll m rest
  | .list items :: rest =>
    match items with
    | .atom "error" :: _ =>
      .error (.output ("solver error: " ++ (Sexp.list items).text))
    | _ => addAll (addItems m items) rest

/-- Reads a model, with or without the word `model` in front of its definitions. Definitions of
other sorts are passed over. -/
def parse (text : List Char) : Except SolverError Model :=
  match Sexp.parse text with
  | .ok sexps => addAll ∅ sexps
  | .error e => .error (.output ("malformed model: " ++ e.message))

end Model

/-- A definite answer. A solver may leave the model out. -/
inductive Answer where
  | sat (model : Option Model)
  | unsat

namespace Answer

/-- Whether the answer is that the script is satisfiable. -/
def isSat : Answer → Bool
  | sat _ => true
  | unsat => false

/-- The values that come with an answer. -/
def model? : Answer → Option Model
  | sat model => model
  | unsat => none

/-- The message for an output without any text, which may hold a complaint. -/
def noOutput (complaint : List Char) : String :=
  let complaint := Text.trim complaint
  "solver produced no output" ++
    if complaint.isEmpty then "" else ": " ++ String.ofList complaint

/-- Reads what a solver printed; `seconds` is the time that it was given. -/
def parse (output complaint : List Char) (seconds : Nat) : Except SolverError Answer :=
  let output := Text.trimStart output
  let first := Text.trim ((Text.lines output).headD [])
  match String.ofList first with
  | "sat" => (Model.parse (output.drop first.length)).map fun m => sat (some m)
  | "unsat" => .ok unsat
  | "unknown" => .error .unknown
  | "timeout" => .error (.timeout seconds)
  | "" => .error (.output (noOutput complaint))
  | line =>
    if "(error".toList.isPrefixOf first then .error (.output line)
    else .error (.output ("unexpected solver output: " ++ line))

end Answer

end WhileSmt
