import WhileSmt.Text.Decimal

/-!
Expressions over 64-bit literals, names, array reads and operators. The type of names is a
parameter: source programs read plain names, and numbered programs read versions of them.
-/

namespace WhileSmt

/-- Comparisons; their value is one or zero. -/
inductive Cmp where
  | eq | ne | le | ge | lt | gt
deriving DecidableEq, Inhabited

/-- The arithmetic operators. -/
inductive Arith where
  | add | sub | mul | div | mod
deriving DecidableEq, Inhabited

/-- The operators between two expressions. -/
inductive BinOp where
  | cmp (op : Cmp)
  | arith (op : Arith)
deriving DecidableEq, Inhabited

/-- The operators in front of an expression. -/
inductive UnOp where
  | not | neg
deriving DecidableEq, Inhabited

/-- A comparison as sources write it. -/
def Cmp.symbol : Cmp → String
  | eq => "=="
  | ne => "!="
  | le => "<="
  | ge => ">="
  | lt => "<"
  | gt => ">"

/-- An arithmetic operator as sources write it. -/
def Arith.symbol : Arith → String
  | add => "+"
  | sub => "-"
  | mul => "*"
  | div => "/"
  | mod => "%"

/-- An operator as sources write it. -/
def BinOp.symbol : BinOp → String
  | cmp op => op.symbol
  | arith op => op.symbol

/-- Whether an operator has a truth value as its result. -/
def BinOp.isComparison : BinOp → Bool
  | cmp _ => true
  | arith _ => false

/-- An operator in front of an expression as sources write it. -/
def UnOp.symbol : UnOp → String
  | not => "!"
  | neg => "-"

/-- Expressions over names of some kind: those of a source, or their numbered versions. -/
inductive Expr (ν : Type) where
  | lit (n : Int64)
  | var (x : ν)
  | index (array : ν) (i : Expr ν)
  | unary (op : UnOp) (e : Expr ν)
  | binary (op : BinOp) (l r : Expr ν)
deriving DecidableEq, Inhabited

namespace Expr

variable {ν μ : Type}

/-- The value of an expression that is a single literal. -/
def literal? : Expr ν → Option Int64
  | lit n => some n
  | _ => none

/-- Whether an expression has an operator between two others at its top. -/
def isBinary : Expr ν → Bool
  | binary .. => true
  | _ => false

/-- The names that an expression reads, from left to right and with repetitions; the array of an
array read comes before its index. -/
def names : Expr ν → List ν
  | lit _ => []
  | var x => [x]
  | index a i => a :: i.names
  | unary _ e => e.names
  | binary _ l r => l.names ++ r.names

/-- Replaces every name by its image. -/
def map (f : ν → μ) : Expr ν → Expr μ
  | lit n => lit n
  | var x => var (f x)
  | index a i => index (f a) (i.map f)
  | unary op e => unary op (e.map f)
  | binary op l r => binary op (l.map f) (r.map f)

/-- The text in which every operation with two operands has its own parentheses. -/
def render (name : ν → String) : Expr ν → String
  | lit n => Text.int64 n
  | var x => name x
  | index a i => name a ++ "[" ++ i.render name ++ "]"
  | unary op e => op.symbol ++ e.render name
  | binary op l r => "(" ++ l.render name ++ " " ++ op.symbol ++ " " ++ r.render name ++ ")"

/-- Puts the text of an operand into parentheses where the operand is itself a binary operation. -/
def enclose (e : Expr ν) (text : String) : String :=
  if e.isBinary then "(" ++ text ++ ")" else text

/-- The text in which only the operands of an operation have parentheses. -/
def label (name : ν → String) : Expr ν → String
  | lit n => Text.int64 n
  | var x => name x
  | index a i => name a ++ "[" ++ i.label name ++ "]"
  | unary op e => op.symbol ++ enclose e (e.label name)
  | binary op l r =>
    enclose l (l.label name) ++ " " ++ op.symbol ++ " " ++ enclose r (r.label name)

end Expr

end WhileSmt
