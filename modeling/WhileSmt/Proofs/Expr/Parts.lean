import WhileSmt.Smt.Encode

/-!
The parts of an expression: the expression itself and, at any depth, its operands and indices. What
the encoder finds out about an expression on its way is stated here about its parts.

Main statements: an expression has an array read among its parts if the encoder says so
(`Expr.hasArray_iff`), and a product, quotient or remainder without a literal operand if the encoder
says so (`Expr.isNonlinear_iff`).
-/

namespace WhileSmt

namespace Expr

variable {ν : Type}

/-- The parts of an expression, the whole expression first. -/
def parts : Expr ν → List (Expr ν)
  | lit n => [lit n]
  | var x => [var x]
  | index a i => index a i :: i.parts
  | unary op e => unary op e :: e.parts
  | binary op l r => binary op l r :: (l.parts ++ r.parts)

theorem literal?_eq_some {e : Expr ν} {n : Int64} : e.literal? = some n ↔ e = lit n := by
  cases e <;> simp [literal?]

theorem hasArray_iff {e : Expr ν} : e.hasArray = true ↔ ∃ a i, index a i ∈ e.parts := by
  induction e with
  | lit n => simp [hasArray, parts]
  | var x => simp [hasArray, parts]
  | index a i ih => exact iff_of_true rfl ⟨a, i, List.mem_cons_self⟩
  | unary op e ih => simp [hasArray, parts, ih]
  | binary op l r ihl ihr =>
    simp only [hasArray, Bool.or_eq_true, ihl, ihr, parts, List.mem_cons, List.mem_append,
      reduceCtorEq, false_or, exists_or]

/-- An operation on unknowns that linear arithmetic does not have. -/
def Scales (e : Expr ν) : Prop :=
  ∃ op l r, e = binary op l r ∧ op.scales = true ∧ l.literal? = none ∧ r.literal? = none

theorem isNonlinear_iff {e : Expr ν} : e.isNonlinear = true ↔ ∃ part ∈ e.parts, part.Scales := by
  induction e with
  | lit n => simp [isNonlinear, parts, Scales]
  | var x => simp [isNonlinear, parts, Scales]
  | index a i ih => simp [isNonlinear, parts, Scales, ih]
  | unary op e ih => simp [isNonlinear, parts, Scales, ih]
  | binary op l r ihl ihr =>
    have hself : (binary op l r).Scales ↔
        op.scales = true ∧ l.literal? = none ∧ r.literal? = none := by
      constructor
      · rintro ⟨_, _, _, heq, h⟩
        cases heq
        exact h
      · exact fun h => ⟨op, l, r, rfl, h⟩
    simp only [isNonlinear, Bool.or_eq_true, Bool.and_eq_true, Option.isNone_iff_eq_none, ihl, ihr,
      parts, List.mem_cons, List.mem_append, or_and_right, exists_or, exists_eq_left, hself,
      and_assoc, or_assoc]

end Expr

end WhileSmt
