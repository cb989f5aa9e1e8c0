import WhileSmt.Ssa.Basic

/-!
Arithmetic on 64-bit literals. An operation is carried out exactly and has a value only if the
result fits; division and remainder are Euclidean, and comparisons and negation give one or zero.
`Expr.fold` replaces every operation on literals that has a value.
-/

namespace WhileSmt

/-- Truth values are one and zero. -/
def ofBool (b : Bool) : Int64 :=
  if b then 1 else 0

/-- Whether a comparison holds. -/
def Cmp.holds : Cmp → Int → Int → Bool
  | eq, a, b => a = b
  | ne, a, b => a ≠ b
  | le, a, b => a ≤ b
  | ge, a, b => a ≥ b
  | lt, a, b => a < b
  | gt, a, b => a > b

/-- The value of an operation on 64-bit integers. A remainder has a value only if the quotient
does. -/
def Arith.eval? : Arith → Int64 → Int64 → Option Int64
  | add, a, b => Text.narrow? (a.toInt + b.toInt)
  | sub, a, b => Text.narrow? (a.toInt - b.toInt)
  | mul, a, b => Text.narrow? (a.toInt * b.toInt)
  | div, a, b => if b = 0 then none else Text.narrow? (a.toInt / b.toInt)
  | mod, a, b =>
    if b = 0 then none
    else (Text.narrow? (a.toInt / b.toInt)).bind fun _ => Text.narrow? (a.toInt % b.toInt)

/-- The value of an operator, if it can be computed. -/
def BinOp.eval? : BinOp → Int64 → Int64 → Option Int64
  | cmp op, a, b => some (ofBool (op.holds a.toInt b.toInt))
  | arith op, a, b => op.eval? a b

/-- The value of an operator in front of a value, if it can be computed. -/
def UnOp.eval? : UnOp → Int64 → Option Int64
  | not, a => some (ofBool (a = 0))
  | neg, a => Text.narrow? (-a.toInt)

namespace Expr

variable {ν : Type}

/-- An operation on one operand, carried out if the operand is a literal and there is a value. -/
def foldUnary (op : UnOp) (e : Expr ν) : Expr ν :=
  match e.literal?.bind op.eval? with
  | some n => lit n
  | none => unary op e

/-- An operation on two operands, carried out if both are literals and there is a value. -/
def foldBinary (op : BinOp) (l r : Expr ν) : Expr ν :=
  match l.literal?, r.literal? with
  | some a, some b =>
    match op.eval? a b with
    | some n => lit n
    | none => binary op l r
  | _, _ => binary op l r

/-- Replaces the names that are known to be constant, and carries out the operations on literals.
The array of an array read is kept. -/
def fold (constant? : ν → Option Int64) : Expr ν → Expr ν
  | lit n => lit n
  | var x =>
    match constant? x with
    | some n => lit n
    | none => var x
  | index a i => index a (i.fold constant?)
  | unary op e => foldUnary op (e.fold constant?)
  | binary op l r => foldBinary op (l.fold constant?) (r.fold constant?)

end Expr

end WhileSmt
