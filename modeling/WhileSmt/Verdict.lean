import WhileSmt.Smt.Script
import WhileSmt.Solver.Answer

/-!
Questions about programs and their verdicts. A question becomes a script; the solver's answer to
it decides the verdict. A solver that fails does not stop the run: the verdict is then negative,
with the failure as its reason. Programs with different numbers of outputs are not equivalent,
whatever a solver says.
-/

namespace WhileSmt

/-- What can be asked: whether the assertions of a program can hold, and whether two programs can
agree on every output. -/
inductive Question where
  | assertions (code : Code)
  | equivalence (first second : Code)

/-- What a question comes to. -/
inductive Verdict where
  | verified
  | notVerified
  | equivalent
  | notEquivalent
deriving DecidableEq

/-- The verdicts of a run that succeeds. -/
def Verdict.isPositive : Verdict → Bool
  | verified | equivalent => true
  | notVerified | notEquivalent => false

/-- A verdict in words. -/
def Verdict.text : Verdict → String
  | verified => "Verified"
  | notVerified => "Not verified"
  | equivalent => "Equivalent"
  | notEquivalent => "Not equivalent"

/-- Why a verdict is negative. -/
inductive Reason where
  | unsatisfiable
  | outputCounts (first second : Nat)
  | solverFailure (error : SolverError)
deriving DecidableEq

/-- A reason in words. -/
def Reason.text : Reason → String
  | unsatisfiable => "constraints are unsatisfiable together with the goal"
  | outputCounts first second =>
    "programs expose a different number of outputs (" ++ Text.natural first ++ " vs " ++
      Text.natural second ++ ")"
  | solverFailure error => "solver failed: " ++ error.message

/-- A verdict with what supports it: a positive one has the model that the solver gave, if any, and a
negative one a reason. -/
structure Report where
  verdict : Verdict
  model : Option Model
  reason : Option Reason
  script : Script
  /-- The file that the script was saved in. -/
  savedTo : Option String := none

namespace Question

/-- The script that puts a question to a solver. -/
def script : Question → Script
  | assertions code => Script.verification code
  | equivalence first second => Script.equivalence first second

/-- The verdict for a satisfiable or an unsatisfiable script. -/
def verdict : Question → Bool → Verdict
  | assertions _, true => .verified
  | assertions _, false => .notVerified
  | equivalence _ _, true => .equivalent
  | equivalence _ _, false => .notEquivalent

/-- The report on what a solver answers. -/
def conclude (q : Question) : Except SolverError Answer → Report
  | .ok (.sat model) =>
    { verdict := q.verdict true, model := model, reason := none, script := q.script }
  | .ok .unsat =>
    { verdict := q.verdict false, model := none, reason := some .unsatisfiable,
      script := q.script }
  | .error e =>
    { verdict := q.verdict false, model := none, reason := some (.solverFailure e),
      script := q.script }

/-- The report on programs with different numbers of outputs. -/
def differing (q : Question) (first second : Nat) : Report :=
  { verdict := q.verdict false, model := none, reason := some (.outputCounts first second),
    script := q.script }

end Question

end WhileSmt
