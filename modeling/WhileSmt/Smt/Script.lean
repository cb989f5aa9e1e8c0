import WhileSmt.Smt.Encode

/-!
Solver scripts. A script declares its constants, asserts the equations of one or two programs and
then the property in question, and asks for an answer and a model.
-/

namespace WhileSmt

/-- The logics that scripts declare, by whether products of unknowns and arrays occur. -/
inductive Logic where
  | linear
  | nonlinear
  | linearArrays
  | nonlinearArrays
deriving DecidableEq

/-- A logic under its standard name. -/
def Logic.name : Logic → String
  | linear => "QF_LIA"
  | nonlinear => "QF_NIA"
  | linearArrays => "QF_ALIA"
  | nonlinearArrays => "QF_AUFNIA"

/-- The logic for the expressions of a script. -/
def Logic.of (exprs : List (Expr Version)) : Logic :=
  match exprs.any Expr.isNonlinear, exprs.any Expr.hasArray with
  | false, false => linear
  | true, false => nonlinear
  | false, true => linearArrays
  | true, true => nonlinearArrays

/-- Keeps the first entry of every name. -/
def keepFirst {α : Type} (seen : List String) : List (String × α) → List (String × α)
  | [] => []
  | (x, a) :: rest =>
    if x ∈ seen then keepFirst seen rest else (x, a) :: keepFirst (x :: seen) rest

/-- A script. A mismatch records the numbers of outputs of two programs that cannot be compared. -/
structure Script where
  logic : Logic
  declarations : List (String × Srt)
  constraints : List (Term .bool)
  goals : List (Term .bool)
  mismatch : Option (Nat × Nat) := none

namespace Script

/-- The script that asks whether the assertions of a program can hold together. -/
def verification (code : Code) : Script where
  logic := Logic.of (Code.encoded code)
  declarations := keepFirst [] (Code.symbols code)
  constraints := Code.equations code
  goals := Code.goals code

/-- The marker on the versions of the second of two programs. -/
def secondMarker : String := "p2"

/-- The script that asks whether two programs can agree on their outputs, paired in order. The
assertions of both count among the constraints. -/
def equivalence (first second : Code) : Script :=
  let second := Code.mark secondMarker second
  let left := Code.outputs first
  let right := Code.outputs second
  let agree := left.length = right.length
  { logic := Logic.of (Code.encoded first ++ Code.encoded second)
    declarations := keepFirst [] (Code.symbols first ++ Code.symbols second)
    constraints :=
      Code.equations first ++ Code.goals first ++ (Code.equations second ++ Code.goals second)
    goals :=
      if agree then
        (left.zip right).map fun (a, b) => .rel .eq (.const a.text) (.const b.text)
      else [.falsity]
    mismatch := if agree then none else some (left.length, right.length) }

/-- How many terms a script asserts. -/
def assertionCount (s : Script) : Nat :=
  s.constraints.length + s.goals.length

/-! ## Text -/

/-- The line that asserts a term. -/
def assertLine (t : Term .bool) : String :=
  (Sexp.list [.atom "assert", t.toSexp]).text

/-- The lines for the equations. -/
def constraintLines (s : Script) : List String :=
  s.constraints.map assertLine

/-- The lines for the goals; one that only marks a mismatch says so in a comment. -/
def goalLines (s : Script) : List String :=
  s.goals.map fun t =>
    assertLine t ++ if s.mismatch.isSome then " ; output count mismatch" else ""

/-- The lines for the constants. -/
def declarationLines (s : Script) : List String :=
  s.declarations.map fun (name, sort) =>
    (Sexp.list [.atom "declare-const", .atom name, sort.toSexp]).text

/-- The lines of a script: its logic, its constants, what it asserts, and the question. -/
def lines (s : Script) : List String :=
  (Sexp.list [.atom "set-logic", .atom s.logic.name]).text :: s.declarationLines ++
    s.constraintLines ++ s.goalLines ++ ["(check-sat)", "(get-model)"]

/-- The text of a script, one command per line. -/
def text (s : Script) : String :=
  String.join (s.lines.map (· ++ "\n"))

end Script

end WhileSmt
