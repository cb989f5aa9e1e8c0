import WhileSmt.Smt.Term
import WhileSmt.Ssa.Basic

/-!
Instructions as solver terms. Every version is a constant named by its text. Definitions and
guarded joins of two versions become equations, assertions become goals; a join without a guard
says nothing.
-/

namespace WhileSmt

/-- The operations that take two unknowns out of linear arithmetic. -/
def BinOp.scales : BinOp → Bool
  | arith .mul | arith .div | arith .mod => true
  | _ => false

/-- A comparison of two terms. -/
def Cmp.term (l r : Term .int) : Cmp → Term .bool
  | eq => .rel .eq l r
  | ne => .not (.rel .eq l r)
  | le => .rel .le l r
  | ge => .rel .ge l r
  | lt => .rel .lt l r
  | gt => .rel .gt l r

namespace Expr

mutual

/-- The value of an expression as an integer term. -/
def intTerm : Expr Version → Term .int
  | lit n => .ofInt n.toInt
  | var x => .const x.text
  | index a i => .select (.array a.text) i.intTerm
  | unary .neg e => .neg e.intTerm
  | unary .not e => .ofTruth (.not e.boolTerm)
  | binary (.arith op) l r => .arith op l.intTerm r.intTerm
  | binary (.cmp op) l r => .ofTruth (op.term l.intTerm r.intTerm)

/-- The truth of an expression: a comparison or a negation as it is, any other value by whether
it differs from zero. -/
def boolTerm : Expr Version → Term .bool
  | lit n => .toTruth (.ofInt n.toInt)
  | var x => .toTruth (.const x.text)
  | index a i => .toTruth (.select (.array a.text) i.intTerm)
  | unary .neg e => .toTruth (.neg e.intTerm)
  | unary .not e => .not e.boolTerm
  | binary (.arith op) l r => .toTruth (.arith op l.intTerm r.intTerm)
  | binary (.cmp op) l r => op.term l.intTerm r.intTerm

end

/-- The constants of an expression with their sorts, from left to right and with repetitions. -/
def symbols : Expr Version → List (String × Srt)
  | lit _ => []
  | var x => [(x.text, .int)]
  | index a i => (a.text, .array) :: i.symbols
  | unary _ e => e.symbols
  | binary _ l r => l.symbols ++ r.symbols

/-- Whether an expression reads an element of an array. -/
def hasArray {ν : Type} : Expr ν → Bool
  | lit _ => false
  | var _ => false
  | index _ _ => true
  | unary _ e => e.hasArray
  | binary _ l r => l.hasArray || r.hasArray

/-- Whether some product, quotient or remainder has no literal among its operands. -/
def isNonlinear {ν : Type} : Expr ν → Bool
  | lit _ => false
  | var _ => false
  | index _ i => i.isNonlinear
  | unary _ e => e.isNonlinear
  | binary op l r =>
    op.scales && l.literal?.isNone && r.literal?.isNone || l.isNonlinear || r.isNonlinear

end Expr

namespace Instr

/-- The equation that an instruction stands for. -/
def equation? : Instr → Option (Term .bool)
  | .define target value => some (.rel .eq (.const target.text) value.intTerm)
  | .join result [first, second] (some guard) =>
    some (.rel .eq (.const result.text)
      (.ite guard.boolTerm (.const first.text) (.const second.text)))
  | _ => none

/-- The condition of an assertion. -/
def goal? : Instr → Option (Term .bool)
  | .check cond => some cond.boolTerm
  | _ => none

/-- The expression of an instruction that reaches the solver. -/
def encoded? : Instr → Option (Expr Version)
  | .define _ value => some value
  | .join _ [_, _] (some guard) => some guard
  | .join _ _ _ => none
  | .check cond => some cond

/-- The constants that an instruction defines or joins. -/
def heads : Instr → List Version
  | .define target _ => [target]
  | .join result operands _ => result :: operands
  | .check _ => []

/-- The constants of an instruction with their sorts, in order and with repetitions. -/
def symbols (instr : Instr) : List (String × Srt) :=
  instr.heads.map (fun v => (v.text, Srt.int)) ++ (instr.encoded?.map Expr.symbols).getD []

end Instr

namespace Code

/-- The equations of the instructions of a list. -/
def equations (code : Code) : List (Term .bool) :=
  code.filterMap Instr.equation?

/-- The assertions of a list. -/
def goals (code : Code) : List (Term .bool) :=
  code.filterMap Instr.goal?

/-- The expressions that become terms. -/
def encoded (code : Code) : List (Expr Version) :=
  code.filterMap Instr.encoded?

/-- The constants that the terms of a list speak of, with their sorts. -/
def symbols (code : Code) : List (String × Srt) :=
  code.flatMap Instr.symbols

/-- Puts a version in the place of the one with the same name, or at the end. -/
def setOutput (v : Version) : List Version → List Version
  | [] => [v]
  | o :: rest => if o.base = v.base then v :: rest else o :: setOutput v rest

/-- The outputs: for every name that is defined other than by a join, the last version so defined.
The names are in the order of their first definitions. -/
def outputs (code : Code) : List Version :=
  code.foldl (fun outputs instr =>
    match instr with
    | .define target _ => setOutput target outputs
    | _ => outputs) []

end Code

end WhileSmt
