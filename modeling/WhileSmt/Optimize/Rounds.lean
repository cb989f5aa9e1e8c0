import WhileSmt.Optimize.Constants
import WhileSmt.Optimize.DeadCode

/-!
The optimizer. The passes run in order, round after round, until a round changes nothing or the
allowed number of rounds is used up.
-/

namespace WhileSmt

/-- The transformations the optimizer knows. -/
inductive Pass where
  | constants
  | deadCode
deriving DecidableEq

/-- The name of a pass in reports. -/
def Pass.name : Pass → String
  | constants => "Constant Propagation"
  | deadCode => "Dead Code Elimination"

/-- What a pass leaves of a list, and whether it has changed anything. -/
def Pass.run : Pass → Code → Code × Bool
  | constants, code => Code.propagation code
  | deadCode, code => Code.elimination code

/-- A pass tells of a change if and only if it leaves another list. -/
theorem Pass.run_changed_iff (pass : Pass) (code : Code) :
    (pass.run code).2 = true ↔ (pass.run code).1 ≠ code := by
  cases pass with
  | constants => exact Code.walk_changed_iff (Code.constants code) code
  | deadCode =>
    exact (Code.elimination_changed_iff code).trans Code.length_eliminateDead_lt_iff

/-- What the optimizer has done so far: the instructions, the number of rounds that changed them,
and the passes that did, the last one first. -/
structure Optimized where
  code : Code
  rounds : Nat := 0
  applied : List Pass := []

namespace Optimized

/-- Runs one pass, and records it if it tells of a change. -/
def step (o : Optimized) (pass : Pass) : Optimized :=
  let (code, changed) := pass.run o.code
  { o with code := code, applied := if changed then pass :: o.applied else o.applied }

/-- Runs at most `limit` rounds, and stops after a round in which no pass told of a change. -/
def run (passes : List Pass) : Nat → Optimized → Optimized
  | 0, o => o
  | limit + 1, o =>
    let next := passes.foldl step o
    if next.applied.length = o.applied.length then next
    else run passes limit { next with rounds := o.rounds + 1 }

/-- How often each pass changed something, by its name. -/
def applications (o : Optimized) : NameMap Nat :=
  o.applied.foldl (fun m pass => m.insert pass.name ((m.get? pass.name).getD 0 + 1)) ∅

end Optimized

/-- The passes in their usual order. -/
def Pass.all : List Pass :=
  [.constants, .deadCode]

/-- The usual limit of rounds. -/
def roundLimit : Nat := 10

/-- Runs the given passes on a list of instructions. -/
def Code.optimizeWith (passes : List Pass) (limit : Nat) (code : Code) : Optimized :=
  Optimized.run passes limit { code := code }

/-- Optimizes a list of instructions as usual. -/
def Code.optimize (code : Code) : Code :=
  (Code.optimizeWith Pass.all roundLimit code).code

end WhileSmt
