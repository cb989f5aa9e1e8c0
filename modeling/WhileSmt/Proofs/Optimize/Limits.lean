import WhileSmt.Proofs.Optimize.Constants

/-!
Arithmetic on 64-bit literals, up to the limits of 64 bits. What an operation comes to over the
integers is a relation here (`BinOp.Exact`): a quotient and a remainder are described by the
equation that they solve, and comparisons by the order of the integers.

Main statement (`BinOp.eval?_exact`): a value is the only exact result, and there is none for
divisions by zero, for results that need more than 64 bits, and for the remainder of the least
integer by minus one, which fits although its quotient does not.
-/

namespace WhileSmt

/-! ## Exact results -/

/-- What a comparison says of two integers. -/
def Cmp.Relates : Cmp → Int → Int → Prop
  | eq, a, b => a = b
  | ne, a, b => a ≠ b
  | le, a, b => a ≤ b
  | ge, a, b => b ≤ a
  | lt, a, b => a < b
  | gt, a, b => b < a

/-- A quotient and a remainder of `a` by `b`. The remainder is never negative, whatever the signs of
the two. -/
structure Euclidean (a b q r : Int) : Prop where
  eq : a = b * q + r
  nonneg : 0 ≤ r
  lt : r < b.natAbs

namespace BinOp

/-- The result of an operation over the integers; divisions by zero have none. -/
def Exact : BinOp → Int → Int → Int → Prop
  | cmp op, a, b, n => op.Relates a b ∧ n = 1 ∨ ¬op.Relates a b ∧ n = 0
  | arith .add, a, b, n => n = a + b
  | arith .sub, a, b, n => n = a - b
  | arith .mul, a, b, n => n = a * b
  | arith .div, a, b, n => ∃ r, Euclidean a b n r
  | arith .mod, a, b, n => ∃ q, Euclidean a b q n

/-- The operators that have no value on a divisor of zero. -/
def IsDivision (op : BinOp) : Prop :=
  op = arith .div ∨ op = arith .mod

end BinOp

theorem Cmp.holds_iff {op : Cmp} {a b : Int} : op.holds a b = true ↔ op.Relates a b := by
  cases op <;> exact decide_eq_true_iff

/-- The equation has one solution unless the divisor is zero, and then it has none. -/
theorem euclidean_iff {a b q r : Int} :
    Euclidean a b q r ↔ b ≠ 0 ∧ q = a / b ∧ r = a % b := by
  constructor
  · rintro ⟨heq, hnonneg, hlt⟩
    have hb : b ≠ 0 := by omega
    have hsum : r + b * q = a := by omega
    rcases Int.lt_or_gt_of_ne hb with hneg | hpos
    · obtain ⟨hq, hr⟩ := (Int.ediv_emod_unique' hneg).mpr ⟨hsum, hnonneg, by omega⟩
      exact ⟨hb, hq.symm, hr.symm⟩
    · obtain ⟨hq, hr⟩ := (Int.ediv_emod_unique hpos).mpr ⟨hsum, hnonneg, by omega⟩
      exact ⟨hb, hq.symm, hr.symm⟩
  · rintro ⟨hb, rfl, rfl⟩
    exact ⟨(Int.mul_ediv_add_emod a b).symm, Int.emod_nonneg a hb, Int.emod_lt a hb⟩

/-- The exact result is the value over the integers, whatever that is for divisions by zero. -/
theorem BinOp.exact_iff (z : ZeroDivision) {op : BinOp} {a b n : Int} :
    op.Exact a b n ↔ (op.IsDivision → b ≠ 0) ∧ n = op.value z a b := by
  cases op with
  | cmp op =>
    cases hholds : op.holds a b with
    | true =>
      have hrelates : op.Relates a b := Cmp.holds_iff.mp hholds
      simp [Exact, IsDivision, value, truthValue, hholds, hrelates]
    | false =>
      have hrelates : ¬op.Relates a b := by simp [← Cmp.holds_iff, hholds]
      simp [Exact, IsDivision, value, truthValue, hholds, hrelates]
  | arith op =>
    cases op with
    | div =>
      simp only [Exact, IsDivision, value, Arith.value, euclidean_iff]
      by_cases hb : b = 0 <;> simp [hb]
    | mod =>
      simp only [Exact, IsDivision, value, Arith.value, euclidean_iff]
      by_cases hb : b = 0 <;> simp [hb]
    | _ => simp [Exact, IsDivision, value, Arith.value]

/-! ## The limits -/

/-- The integer is one of those with 64 bits. -/
def Fits (n : Int) : Prop :=
  -9223372036854775808 ≤ n ∧ n ≤ 9223372036854775807

theorem fits_toInt (a : Int64) : Fits a.toInt :=
  ⟨Int64.minValue_le_toInt a, Int64.toInt_le a⟩

theorem narrow?_eq_none_iff {n : Int} : Text.narrow? n = none ↔ ¬Fits n := by
  have hlimits : Int64.minValue.toInt ≤ n ∧ n ≤ Int64.maxValue.toInt ↔ Fits n := Iff.rfl
  rw [Text.narrow?]
  split
  · next h => simp [hlimits.mp h]
  · next h => simp [mt hlimits.mpr h]

/-- A quotient is no greater than the dividend, so only the opposite of the least integer can be too
great for 64 bits. -/
theorem fits_ediv_iff {a b : Int} (ha : Fits a) (hb : b ≠ 0) :
    Fits (a / b) ↔ ¬(a = -9223372036854775808 ∧ b = -1) := by
  have hle := Int.natAbs_ediv_le_natAbs a b
  have hsum := Int.mul_ediv_add_emod a b
  have hnonneg := Int.emod_nonneg a hb
  have hlt := Int.emod_lt a hb
  unfold Fits at *
  constructor
  · rintro ⟨-, hmax⟩ ⟨rfl, rfl⟩
    exact absurd hmax (by decide)
  · intro hopposite
    refine ⟨by omega, ?_⟩
    by_contra hmax
    -- the dividend is then the least integer, and no divisor but minus one leaves a small remainder
    have hq : a / b = 9223372036854775808 := by omega
    rw [hq] at hsum
    omega

theorem fits_emod {a b : Int} (hb : Fits b) (hne : b ≠ 0) : Fits (a % b) := by
  have hnonneg := Int.emod_nonneg a hne
  have hlt := Int.emod_lt a hne
  unfold Fits at *
  omega

/-! ## Operations on literals -/

namespace Arith

variable {op : Arith} {a b : Int64}

/-- All operations but the remainder give their value over the integers if it fits. -/
theorem eval?_eq_narrow? (z : ZeroDivision) (hmod : op ≠ mod) (hdiv : op = div → b ≠ 0) :
    op.eval? a b = Text.narrow? (op.value z a.toInt b.toInt) := by
  cases op with
  | div =>
    have hb := hdiv rfl
    rw [eval?, if_neg hb, value, if_neg (mt toInt_eq_zero.mp hb)]
  | mod => exact absurd rfl hmod
  | _ => rfl

/-- The remainder fits, and is lost with the quotient. -/
theorem eval?_mod_eq_none_iff (hb : b ≠ 0) :
    mod.eval? a b = none ↔ a.toInt = -9223372036854775808 ∧ b.toInt = -1 := by
  have hne : b.toInt ≠ 0 := mt toInt_eq_zero.mp hb
  have hremainder : Text.narrow? (a.toInt % b.toInt) ≠ none :=
    mt narrow?_eq_none_iff.mp (not_not_intro (fits_emod (fits_toInt b) hne))
  have hquotient : Text.narrow? (a.toInt / b.toInt) = none ↔
      a.toInt = -9223372036854775808 ∧ b.toInt = -1 := by
    rw [narrow?_eq_none_iff, fits_ediv_iff (fits_toInt a) hne, not_not]
  rw [eval?, if_neg hb, ← hquotient, Option.bind_eq_none_iff]
  constructor
  · intro h
    cases hq : Text.narrow? (a.toInt / b.toInt) with
    | none => rfl
    | some q => exact absurd (h q hq) hremainder
  · intro h q hq
    rw [h] at hq
    cases hq

end Arith

namespace BinOp

variable {op : BinOp} {a b : Int64}

theorem eval?_of_isDivision (hop : op.IsDivision) : op.eval? a 0 = none := by
  rcases hop with rfl | rfl <;> rfl

/-- A value is the exact result, and there is no other. -/
theorem exact_iff_of_eval? {n : Int64} (h : op.eval? a b = some n) {m : Int} :
    op.Exact a.toInt b.toInt m ↔ m = n.toInt := by
  -- the divisor is not zero, so it does not matter what divisions by zero give
  let z : ZeroDivision := ⟨id, id⟩
  have hdivisor : op.IsDivision → b.toInt ≠ 0 := by
    intro hop hzero
    rw [toInt_eq_zero.mp hzero, eval?_of_isDivision hop] at h
    cases h
  rw [exact_iff z, toInt_eval? z h]
  exact and_iff_right hdivisor

/-- Unless the divisor is zero, all operations but the remainder lack a value only where the exact
result does not fit. -/
theorem eval?_eq_none_iff_of_ne_mod {op : Arith} (hmod : op ≠ .mod) (hdiv : op = .div → b ≠ 0) :
    (arith op).eval? a b = none ↔ ∃ n, (arith op).Exact a.toInt b.toInt n ∧ ¬Fits n := by
  let z : ZeroDivision := ⟨id, id⟩
  have hdivisor : (arith op).IsDivision → b.toInt ≠ 0 := by
    rintro (hop | hop)
    · exact mt toInt_eq_zero.mp (hdiv (arith.inj hop))
    · exact absurd (arith.inj hop) hmod
  have hexact : ∀ n, (arith op).Exact a.toInt b.toInt n ↔ n = op.value z a.toInt b.toInt :=
    fun n => (exact_iff z).trans (and_iff_right hdivisor)
  rw [eval?, Arith.eval?_eq_narrow? z hmod hdiv, narrow?_eq_none_iff]
  simp only [hexact, exists_eq_left]

/-- Carrying out an operation on 64-bit integers gives the exact result or nothing. It gives nothing
only for divisions by zero, for sums, differences, products and quotients that do not fit, and for
the remainder of the least integer by minus one. -/
theorem eval?_exact (op : BinOp) (a b : Int64) :
    (∀ n, op.eval? a b = some n → ∀ m, op.Exact a.toInt b.toInt m ↔ m = n.toInt) ∧
      (op.eval? a b = none ↔
        op.IsDivision ∧ b.toInt = 0 ∨
        (op ∈ [arith .add, arith .sub, arith .mul, arith .div] ∧
          ∃ n, op.Exact a.toInt b.toInt n ∧ ¬Fits n) ∨
        op = arith .mod ∧ a.toInt = -9223372036854775808 ∧ b.toInt = -1) := by
  refine ⟨fun n h m => exact_iff_of_eval? h, ?_⟩
  by_cases hzero : op.IsDivision ∧ b = 0
  · obtain ⟨hop, rfl⟩ := hzero
    exact iff_of_true (eval?_of_isDivision hop) (.inl ⟨hop, rfl⟩)
  · have hdivisor : ¬(op.IsDivision ∧ b.toInt = 0) := by rwa [toInt_eq_zero]
    rw [or_iff_right hdivisor]
    cases op with
    | cmp op => simp [eval?]
    | arith op =>
      by_cases hmod : op = .mod
      · subst hmod
        have hb : b ≠ 0 := fun hb => hzero ⟨.inr rfl, hb⟩
        rw [eval?, Arith.eval?_mod_eq_none_iff hb]
        simp
      · have hop : arith op ∈ [arith .add, arith .sub, arith .mul, arith .div] := by
          cases op with
          | mod => exact absurd rfl hmod
          | _ => simp
        have hdiv : op = .div → b ≠ 0 := fun hdiv hb => hzero ⟨.inl (congrArg arith hdiv), hb⟩
        rw [eval?_eq_none_iff_of_ne_mod hmod hdiv, and_iff_right hop,
          or_iff_left fun h => hmod (arith.inj h.1)]

/-- Dividing a negative integer by a negative one rounds up, and the least integer has no remainder
by minus one, although the exact one is zero. -/
theorem eval?_exact_negative :
    (arith .div).eval? (-7) (-2) = some 4 ∧ (∀ m, (arith .div).Exact (-7) (-2) m ↔ m = 4) ∧
      (arith .mod).eval? Int64.minValue (-1) = none ∧
      (arith .mod).Exact Int64.minValue.toInt (-1) 0 := by
  have hquotient : (arith .div).eval? (-7) (-2) = some 4 := rfl
  exact ⟨hquotient, (eval?_exact (arith .div) (-7) (-2)).1 4 hquotient,
    (eval?_exact (arith .mod) Int64.minValue (-1)).2.mpr (.inr (.inr ⟨rfl, rfl, rfl⟩)),
    9223372036854775808, by decide, by decide, by decide⟩

end BinOp

end WhileSmt
