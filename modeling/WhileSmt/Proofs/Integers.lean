import WhileSmt.Optimize.Fold
import WhileSmt.Proofs.Meaning

/-!
The interpretation over unbounded integers. Comparisons and negation give one or zero, division and
remainder are Euclidean, and an integer counts as true unless it is zero. What a division by zero
gives is a parameter, as is what an array read gives.
-/

namespace WhileSmt

/-- The quotient and the remainder of every integer by zero. -/
structure ZeroDivision where
  div : Int → Int
  mod : Int → Int

/-- The value of an arithmetic operator on the integers. -/
def Arith.value (z : ZeroDivision) : Arith → Int → Int → Int
  | add, a, b => a + b
  | sub, a, b => a - b
  | mul, a, b => a * b
  | div, a, b => if b = 0 then z.div a else a / b
  | mod, a, b => if b = 0 then z.mod a else a % b

/-- One for true and zero for false. -/
def truthValue (b : Bool) : Int :=
  if b then 1 else 0

/-- The value of an operator on the integers. -/
def BinOp.value (z : ZeroDivision) : BinOp → Int → Int → Int
  | cmp op, a, b => truthValue (op.holds a b)
  | arith op, a, b => op.value z a b

/-- The value of an operator in front of an integer. -/
def UnOp.value : UnOp → Int → Int
  | not, a => truthValue (a = 0)
  | neg, a => -a

@[simp] theorem truthValue_eq_zero (b : Bool) : truthValue b = 0 ↔ b = false := by
  cases b <;> simp [truthValue]

/-- The interpretation over the integers, where `arrays` gives the value of an array read from the
name of the array, its value and the index. -/
def Meaning.integers {ν : Type} (z : ZeroDivision) (arrays : ν → Int → Int → Int) :
    Meaning ν Int where
  lit := Int64.toInt
  unary := UnOp.value
  binary := BinOp.value z
  index := arrays
  truth := fun d => d ≠ 0
  truth_not := by
    intro d
    by_cases h : d = 0 <;> simp [UnOp.value, h]

@[simp] theorem Meaning.truth_integers {ν : Type} (z : ZeroDivision)
    (arrays : ν → Int → Int → Int) (d : Int) :
    (integers z arrays).truth d = decide (d ≠ 0) := rfl

end WhileSmt
