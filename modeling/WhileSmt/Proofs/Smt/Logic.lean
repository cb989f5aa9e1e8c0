import WhileSmt.Proofs.Expr.Parts
import WhileSmt.Smt.Script

/-!
The logic that a script declares, beside what the terms of the script contain. The logic is chosen
by the expressions; the operations of a term are those of the expression that it was made from.

Main statement: a script without arrays in its logic reads no array, and a script with a linear
logic multiplies, divides and takes remainders only with a literal on one side
(`Script.logic_admits`). The literal need not be the divisor (`Script.linear_divides_by_unknown`).
-/

namespace WhileSmt

namespace Term

/-- The integers of which a term is made, each one before its own parts. -/
@[simp] def ints : {s : Srt} → Term s → List (Term .int)
  | _, numeral n => [numeral n]
  | _, const name => [const name]
  | _, array _ => []
  | _, select a i => select a i :: (a.ints ++ i.ints)
  | _, neg t => neg t :: t.ints
  | _, arith op l r => arith op l r :: (l.ints ++ r.ints)
  | _, ite c t e => ite c t e :: (c.ints ++ t.ints ++ e.ints)
  | _, rel _ l r => l.ints ++ r.ints
  | _, not t => t.ints
  | _, falsity => []

/-- A numeral, or the negation of one. -/
def isLiteral : Term .int → Bool
  | numeral _ => true
  | neg (numeral _) => true
  | _ => false

theorem isLiteral_ofInt (n : Int) : (ofInt n).isLiteral = true := by
  unfold ofInt
  split <;> rfl

/-- A read of an array, or an arithmetic operation on two integers. -/
def isOperation : Term .int → Bool
  | select _ _ => true
  | arith _ _ _ => true
  | _ => false

theorem isOperation_ofInt (n : Int) : (ofInt n).isOperation = false := by
  unfold ofInt
  split <;> rfl

/-- Some integer of the term has the property. -/
def Has {s : Srt} (P : Term .int → Prop) (t : Term s) : Prop :=
  ∃ u ∈ t.ints, P u

section Has

variable {P : Term .int → Prop}

theorem has_select {a : Term .array} {i : Term .int} :
    (select a i).Has P ↔ P (select a i) ∨ a.Has P ∨ i.Has P := by
  simp [Has, or_and_right, exists_or]

theorem has_arith {op : Arith} {l r : Term .int} :
    (arith op l r).Has P ↔ P (arith op l r) ∨ l.Has P ∨ r.Has P := by
  simp [Has, or_and_right, exists_or]

theorem has_rel {op : Rel} {l r : Term .int} : (rel op l r).Has P ↔ l.Has P ∨ r.Has P := by
  simp [Has, or_and_right, exists_or]

theorem has_not {t : Term .bool} : (not t).Has P ↔ t.Has P :=
  Iff.rfl

theorem not_has_array {name : String} : ¬ (array name).Has P := by
  simp [Has]

-- for a property of operations only, the other terms are looked through
variable (hP : ∀ t, P t → t.isOperation = true)
include hP

theorem not_of_isOperation {t : Term .int} (h : t.isOperation = false) : ¬ P t :=
  fun hPt => Bool.noConfusion (h.symm.trans (hP t hPt))

theorem not_has_numeral (n : Nat) : ¬ (numeral n).Has P := by
  simp [Has, not_of_isOperation hP (t := numeral n) rfl]

theorem not_has_const (name : String) : ¬ (const name).Has P := by
  simp [Has, not_of_isOperation hP (t := const name) rfl]

theorem has_neg {t : Term .int} : (neg t).Has P ↔ t.Has P := by
  simp [Has, not_of_isOperation hP (t := neg t) rfl]

theorem has_ite {c : Term .bool} {t e : Term .int} :
    (ite c t e).Has P ↔ c.Has P ∨ t.Has P ∨ e.Has P := by
  simp [Has, or_and_right, exists_or, not_of_isOperation hP (t := ite c t e) rfl]

theorem not_has_ofInt (n : Int) : ¬ (ofInt n).Has P := by
  unfold ofInt
  split
  · rw [has_neg hP]
    exact not_has_numeral hP _
  · exact not_has_numeral hP _

theorem has_ofTruth {t : Term .bool} : (ofTruth t).Has P ↔ t.Has P := by
  simp [ofTruth, has_ite hP, not_has_numeral hP]

theorem has_toTruth {t : Term .int} : (toTruth t).Has P ↔ t.Has P := by
  simp [toTruth, has_not, has_rel, not_has_numeral hP]

end Has

end Term

theorem Cmp.has_term {P : Term .int → Prop} {l r : Term .int} (op : Cmp) :
    (op.term l r).Has P ↔ l.Has P ∨ r.Has P := by
  cases op <;> exact Term.has_rel

/-! ## The operations of terms and of expressions -/

/-- Some part of the expression stands for an integer with the property. -/
def Expr.Has (P : Term .int → Prop) (e : Expr Version) : Prop :=
  ∃ part ∈ e.parts, P part.intTerm

section

variable {P : Term .int → Prop} (hP : ∀ t, P t → t.isOperation = true)
include hP

/-- The operations of the terms of an expression are those of its parts. -/
theorem Expr.has_terms (e : Expr Version) :
    (e.intTerm.Has P ↔ e.Has P) ∧ (e.boolTerm.Has P ↔ e.Has P) := by
  induction e with
  | lit n =>
    have hself : ¬ P (Term.ofInt n.toInt) :=
      Term.not_of_isOperation hP (Term.isOperation_ofInt _)
    simp [intTerm, boolTerm, Term.has_toTruth hP, Term.not_has_ofInt hP, Has, parts, hself]
  | var x =>
    have hself : ¬ P (Term.const x.text) := Term.not_of_isOperation hP rfl
    simp [intTerm, boolTerm, Term.has_toTruth hP, Term.not_has_const hP, Has, parts, hself]
  | index a i ih =>
    simp only [Has] at ih
    simp [intTerm, boolTerm, Term.has_toTruth hP, Term.has_select, Term.not_has_array, ih.1, Has,
      parts]
  | unary op e ih =>
    simp only [Has] at ih
    cases op with
    | neg =>
      have hself : ¬ P (Term.neg e.intTerm) := Term.not_of_isOperation hP rfl
      simp [intTerm, boolTerm, Term.has_toTruth hP, Term.has_neg hP, ih.1, Has, parts, hself]
    | not =>
      have hself : ¬ P (Term.ofTruth (.not e.boolTerm)) := Term.not_of_isOperation hP rfl
      simp [intTerm, boolTerm, Term.has_ofTruth hP, Term.has_not, ih.2, Has, parts, hself]
  | binary op l r ihl ihr =>
    simp only [Has] at ihl ihr
    cases op with
    | arith op =>
      simp [intTerm, boolTerm, Term.has_toTruth hP, Term.has_arith, ihl.1, ihr.1, Has, parts,
        or_and_right, exists_or]
    | cmp op =>
      have hself : ¬ P (Term.ofTruth (op.term l.intTerm r.intTerm)) :=
        Term.not_of_isOperation hP rfl
      simp [intTerm, boolTerm, Term.has_ofTruth hP, Cmp.has_term, ihl.1, ihr.1, Has, parts,
        or_and_right, exists_or, hself]

theorem Instr.has_equation {instr : Instr} {t : Term .bool} (h : instr.equation? = some t) :
    ∃ e, instr.encoded? = some e ∧ (t.Has P ↔ e.Has P) := by
  unfold equation? at h
  split at h
  · next target value =>
    cases h
    exact ⟨value, rfl, by simp [Term.has_rel, Term.not_has_const hP, (Expr.has_terms hP value).1]⟩
  · next result first second guard =>
    cases h
    exact ⟨guard, rfl, by
      simp [Term.has_rel, Term.has_ite hP, Term.not_has_const hP, (Expr.has_terms hP guard).2]⟩
  · cases h

theorem Instr.has_goal {instr : Instr} {t : Term .bool} (h : instr.goal? = some t) :
    ∃ e, instr.encoded? = some e ∧ (t.Has P ↔ e.Has P) := by
  unfold goal? at h
  split at h
  · next cond =>
    cases h
    exact ⟨cond, rfl, (Expr.has_terms hP cond).2⟩
  · cases h

end

/-- Every expression that reaches the solver does so in an equation or in a goal. -/
theorem Instr.equation_or_goal {instr : Instr} {e : Expr Version} (h : instr.encoded? = some e) :
    ∃ t, instr.equation? = some t ∨ instr.goal? = some t := by
  unfold encoded? at h
  split at h
  · exact ⟨_, .inl rfl⟩
  · exact ⟨_, .inl rfl⟩
  · cases h
  · exact ⟨_, .inr rfl⟩

/-- The operations of a script are those of the expressions that were encoded. -/
theorem Code.has_constraint {P : Term .int → Prop} (hP : ∀ t, P t → t.isOperation = true)
    (code : Code) :
    (∃ t ∈ equations code ++ goals code, t.Has P) ↔ ∃ e ∈ encoded code, e.Has P := by
  have hterm : ∀ t, t ∈ equations code ++ goals code ↔
      ∃ instr ∈ code, instr.equation? = some t ∨ instr.goal? = some t := by
    intro t
    simp only [List.mem_append, equations, goals, List.mem_filterMap, and_or_left, exists_or]
  have hsame : ∀ {instr : Instr} {t : Term .bool},
      instr.equation? = some t ∨ instr.goal? = some t →
        ∃ e, instr.encoded? = some e ∧ (t.Has P ↔ e.Has P) :=
    fun h => h.elim (Instr.has_equation hP) (Instr.has_goal hP)
  constructor
  · rintro ⟨t, ht, hhas⟩
    obtain ⟨instr, hmem, hinstr⟩ := (hterm t).mp ht
    obtain ⟨e, he, hiff⟩ := hsame hinstr
    exact ⟨e, List.mem_filterMap.mpr ⟨instr, hmem, he⟩, hiff.mp hhas⟩
  · rintro ⟨e, he, hhas⟩
    obtain ⟨instr, hmem, he⟩ := List.mem_filterMap.mp he
    obtain ⟨t, ht⟩ := Instr.equation_or_goal he
    obtain ⟨e', he', hiff⟩ := hsame ht
    cases he.symm.trans he'
    exact ⟨t, (hterm t).mpr ⟨instr, hmem, ht⟩, hiff.mpr hhas⟩

/-! ## The choice of the logic -/

namespace Logic

/-- The logic with a name. -/
def ofName? : String → Option Logic
  | "QF_LIA" => some linear
  | "QF_NIA" => some nonlinear
  | "QF_ALIA" => some linearArrays
  | "QF_AUFNIA" => some nonlinearArrays
  | _ => none

theorem ofName?_name (logic : Logic) : ofName? logic.name = some logic := by
  cases logic <;> rfl

/-- Different logics have different names. -/
theorem name_inj {first second : Logic} : first.name = second.name ↔ first = second := by
  refine ⟨fun h => ?_, congrArg name⟩
  have hsome := congrArg ofName? h
  rw [ofName?_name, ofName?_name] at hsome
  exact Option.some.inj hsome

/-- The names of the logics without arrays. -/
theorem name_scalar_iff {logic : Logic} :
    logic.name = "QF_LIA" ∨ logic.name = "QF_NIA" ↔ logic = linear ∨ logic = nonlinear :=
  or_congr (@name_inj logic linear) (@name_inj logic nonlinear)

/-- The names of the linear logics. -/
theorem name_linear_iff {logic : Logic} :
    logic.name = "QF_LIA" ∨ logic.name = "QF_ALIA" ↔ logic = linear ∨ logic = linearArrays :=
  or_congr (@name_inj logic linear) (@name_inj logic linearArrays)

variable {exprs : List (Expr Version)}

/-- The logics without arrays are chosen if no expression reads one. -/
theorem of_arrays :
    Logic.of exprs = linear ∨ Logic.of exprs = nonlinear ↔ ∀ e ∈ exprs, e.hasArray = false := by
  have hany : exprs.any Expr.hasArray = false ↔ ∀ e ∈ exprs, e.hasArray = false := by
    simp
  rw [← hany]
  unfold Logic.of
  split <;> simp_all

/-- The linear logics are chosen if no expression operates on two unknowns. -/
theorem of_scaling :
    Logic.of exprs = linear ∨ Logic.of exprs = linearArrays ↔
      ∀ e ∈ exprs, e.isNonlinear = false := by
  have hany : exprs.any Expr.isNonlinear = false ↔ ∀ e ∈ exprs, e.isNonlinear = false := by
    simp
  rw [← hany]
  unfold Logic.of
  split <;> simp_all

end Logic

namespace Expr

/-- An expression stands for an operation if it is a read or an arithmetic operation itself. -/
theorem cases_of_isOperation {e : Expr Version} (h : e.intTerm.isOperation = true) :
    (∃ a i, e = index a i) ∨ ∃ op l r, e = binary (.arith op) l r := by
  cases e with
  | lit n => exact Bool.noConfusion ((Term.isOperation_ofInt _).symm.trans h)
  | var x => cases h
  | index a i => exact .inl ⟨a, i, rfl⟩
  | unary op e => cases op <;> cases h
  | binary op l r =>
    cases op with
    | arith op => exact .inr ⟨op, l, r, rfl⟩
    | cmp op => cases h

theorem hasArray_iff_has {e : Expr Version} :
    e.hasArray = true ↔ e.Has fun t => ∃ a i, t = .select a i := by
  rw [hasArray_iff]
  constructor
  · rintro ⟨a, i, hmem⟩
    exact ⟨index a i, hmem, _, _, rfl⟩
  · rintro ⟨part, hmem, a, i, heq⟩
    rcases cases_of_isOperation (heq ▸ rfl : part.intTerm.isOperation = true) with
      ⟨a', i', rfl⟩ | ⟨op, l, r, rfl⟩
    · exact ⟨a', i', hmem⟩
    · cases heq

/-- Without an operation on two unknowns, one of the operands is written as a literal. -/
theorem literal_of_not_scales {e : Expr Version} {op : Arith} {l r : Term .int}
    (he : e.intTerm = .arith op l r) (hop : (BinOp.arith op).scales = true) (h : ¬ e.Scales) :
    l.isLiteral = true ∨ r.isLiteral = true := by
  have hliteral : ∀ {e : Expr Version} {n : Int64}, e.literal? = some n →
      e.intTerm.isLiteral = true := by
    intro e n hn
    rw [literal?_eq_some.mp hn]
    exact Term.isLiteral_ofInt _
  rcases cases_of_isOperation (he ▸ rfl : e.intTerm.isOperation = true) with
    ⟨a, i, rfl⟩ | ⟨op', l', r', rfl⟩
  · cases he
  · cases he
    cases hl : l'.literal? with
    | some n => exact .inl (hliteral hl)
    | none =>
      cases hr : r'.literal? with
      | some n => exact .inr (hliteral hr)
      | none => exact absurd ⟨_, _, _, rfl, hop, hl, hr⟩ h

end Expr

/-! ## Scripts -/

namespace Script

/-- A script whose logic has no arrays reads none, and conversely; in a script with a linear logic,
every product, quotient and remainder has a literal operand. The logic is a linear one exactly if
no operation of two unknowns was encoded. -/
theorem logic_admits (code : Code) :
    ((verification code).logic.name = "QF_LIA" ∨ (verification code).logic.name = "QF_NIA" ↔
      ∀ t ∈ (verification code).constraints ++ (verification code).goals,
        ∀ a i, Term.select a i ∉ t.ints) ∧
    ((verification code).logic.name = "QF_LIA" ∨ (verification code).logic.name = "QF_ALIA" →
      ∀ t ∈ (verification code).constraints ++ (verification code).goals,
        ∀ op l r, Term.arith op l r ∈ t.ints → op = .mul ∨ op = .div ∨ op = .mod →
          l.isLiteral = true ∨ r.isLiteral = true) ∧
    ((verification code).logic.name = "QF_LIA" ∨ (verification code).logic.name = "QF_ALIA" ↔
      ∀ e ∈ Code.encoded code, ∀ part ∈ e.parts, ¬ part.Scales) := by
  rw [Logic.name_scalar_iff, Logic.name_linear_iff]
  have hlinear : (verification code).logic = .linear ∨ (verification code).logic = .linearArrays ↔
      ∀ e ∈ Code.encoded code, ∀ part ∈ e.parts, ¬ part.Scales := by
    refine Logic.of_scaling.trans (forall₂_congr fun e _ => ?_)
    rw [Bool.eq_false_iff, ne_eq, Expr.isNonlinear_iff]
    simp
  refine ⟨?_, ?_, hlinear⟩
  · refine Logic.of_arrays.trans ?_
    have hreads := Code.has_constraint (P := fun t => ∃ a i, t = .select a i)
      (by rintro _ ⟨a, i, rfl⟩; rfl) code
    simp only [← Expr.hasArray_iff_has] at hreads
    constructor
    · intro h t ht a i hmem
      obtain ⟨e, he, harray⟩ := hreads.mp ⟨t, ht, _, hmem, a, i, rfl⟩
      exact Bool.noConfusion ((h e he).symm.trans harray)
    · intro h e he
      cases harray : e.hasArray with
      | false => rfl
      | true =>
        obtain ⟨t, ht, _, hmem, a, i, rfl⟩ := hreads.mpr ⟨e, he, harray⟩
        exact absurd hmem (h t ht a i)
  · intro hlogic t ht op l r hmem hop
    have hscales : (BinOp.arith op).scales = true := by
      rcases hop with rfl | rfl | rfl <;> rfl
    obtain ⟨e, he, part, hpart, heq⟩ :=
      (Code.has_constraint (P := (· = .arith op l r)) (by rintro _ rfl; rfl) code).mp
        ⟨t, ht, _, hmem, rfl⟩
    exact Expr.literal_of_not_scales heq hscales (hlinear.mp hlogic e he part hpart)

end Script

/-- A product, a quotient and a remainder with a literal operand, the remainder in an index. -/
def literalOperands : Code :=
  [.define ⟨"y", 0, none⟩ (.binary (.arith .mul) (.lit (-2)) (.index ⟨"a", 0, none⟩
      (.binary (.arith .mod) (.var ⟨"i", 0, none⟩) (.lit 8)))),
    .check (.binary (.arith .div) (.lit 3) (.var ⟨"y", 0, none⟩))]

theorem literalOperands_linear :
    (Script.verification literalOperands).logic.name = "QF_ALIA" ∧
    ∀ t ∈ (Script.verification literalOperands).constraints ++
        (Script.verification literalOperands).goals,
      ∀ op l r, Term.arith op l r ∈ t.ints → op = .mul ∨ op = .div ∨ op = .mod →
        l.isLiteral = true ∨ r.isLiteral = true :=
  ⟨by decide, (Script.logic_admits literalOperands).2.1 (.inr (by decide))⟩

/-- A quotient of a literal by an unknown. -/
def threeOverX : Code :=
  [.define ⟨"y", 0, none⟩ (.binary (.arith .div) (.lit 3) (.var ⟨"x", 0, none⟩))]

/-- A linear logic does not rule out an unknown divisor. -/
theorem Script.linear_divides_by_unknown :
    (verification threeOverX).logic.name = "QF_LIA" ∧
    (verification threeOverX).constraintLines = ["(assert (= y_0 (div 3 x_0)))"] ∧
    ∃ t ∈ (verification threeOverX).constraints ++ (verification threeOverX).goals,
      ∃ l r, Term.arith .div l r ∈ t.ints ∧ r.isLiteral = false := by
  refine ⟨by decide, by decide +kernel, _, List.mem_cons_self, .ofInt 3,
    .const (Version.text ⟨"x", 0, none⟩), ?_, rfl⟩
  exact List.mem_cons_of_mem _ List.mem_cons_self

end WhileSmt
