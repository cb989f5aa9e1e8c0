import WhileSmt.Expr.Basic
import WhileSmt.Smt.Sexp

/-!
Solver terms over integers, truth values and arrays of integers. A term is well-sorted by its
type; its text is that of the S-expression `Term.toSexp`.
-/

namespace WhileSmt

/-- The sorts of terms; arrays are indexed by integers and hold integers. -/
inductive Srt where
  | int
  | bool
  | array
deriving DecidableEq

/-- A sort as scripts write it. -/
def Srt.toSexp : Srt → Sexp
  | int => .atom "Int"
  | bool => .atom "Bool"
  | array => .list [.atom "Array", .atom "Int", .atom "Int"]

/-- The relations that a solver knows; inequality is written by negation. -/
inductive Rel where
  | eq | le | ge | lt | gt
deriving DecidableEq

/-- A relation as scripts write it. -/
def Rel.symbol : Rel → String
  | eq => "="
  | le => "<="
  | ge => ">="
  | lt => "<"
  | gt => ">"

/-- The names of the arithmetic operations in the solver's notation. -/
def Arith.solverSymbol : Arith → String
  | add => "+"
  | sub => "-"
  | mul => "*"
  | div => "div"
  | mod => "mod"

/-- Terms by sort. Numerals are not negative. -/
inductive Term : Srt → Type where
  | numeral (n : Nat) : Term .int
  | const (name : String) : Term .int
  | array (name : String) : Term .array
  | select (array : Term .array) (index : Term .int) : Term .int
  | neg (t : Term .int) : Term .int
  | arith (op : Arith) (l r : Term .int) : Term .int
  | ite (cond : Term .bool) (t e : Term .int) : Term .int
  | rel (op : Rel) (l r : Term .int) : Term .bool
  | not (t : Term .bool) : Term .bool
  | falsity : Term .bool

namespace Term

/-- A term as scripts write it. -/
def toSexp : {s : Srt} → Term s → Sexp
  | _, numeral n => .atom (Text.natural n)
  | _, const name => .atom name
  | _, array name => .atom name
  | _, select a i => .list [.atom "select", a.toSexp, i.toSexp]
  | _, neg t => .list [.atom "-", t.toSexp]
  | _, arith op l r => .list [.atom op.solverSymbol, l.toSexp, r.toSexp]
  | _, ite c t e => .list [.atom "ite", c.toSexp, t.toSexp, e.toSexp]
  | _, rel op l r => .list [.atom op.symbol, l.toSexp, r.toSexp]
  | _, not t => .list [.atom "not", t.toSexp]
  | _, falsity => .atom "false"

/-- The term of an integer; a negative one is the negation of a numeral. -/
def ofInt (n : Int) : Term .int :=
  if n < 0 then neg (numeral n.natAbs) else numeral n.natAbs

/-- The integer of a truth value: one or zero. -/
def ofTruth (t : Term .bool) : Term .int :=
  ite t (numeral 1) (numeral 0)

/-- The truth value of an integer: whether it differs from zero. -/
def toTruth (t : Term .int) : Term .bool :=
  not (rel .eq t (numeral 0))

end Term

end WhileSmt
