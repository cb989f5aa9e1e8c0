import WhileSmt.Proofs.Integers
import WhileSmt.Smt.Script

/-!
What solver scripts say. A valuation gives an integer and an array to every name; a script is
satisfiable if some valuation makes all of its constraints and goals true. Instructions and their
terms say the same: the terms of an expression have its value over the integers.

Main statements: the value of the terms of an expression (`Expr.eval_terms`), and that a
valuation makes a verification script true if and only if it solves and passes the code
(`Script.holds_verification`).
-/

namespace WhileSmt

/-- The values of a sort. -/
abbrev Srt.Carrier : Srt → Type
  | int => Int
  | bool => Bool
  | array => Int → Int

/-- Whether a relation holds between two integers. -/
def Rel.holds : Rel → Int → Int → Bool
  | eq, a, b => a = b
  | le, a, b => a ≤ b
  | ge, a, b => a ≥ b
  | lt, a, b => a < b
  | gt, a, b => a > b

/-- The values of the names of a script. In a script that is well-sorted only one of the two values
of a name counts. -/
structure Valuation where
  ints : String → Int
  arrays : String → Int → Int

/-- Versions can be given any values that are the same for versions with the same text. -/
theorem Valuation.exists_of_versions {S : Version → Prop} {r : Version → Int}
    {A : Version → Int → Int}
    (htext : ∀ v w, S v → S w → v.text = w.text → r v = r w ∧ A v = A w) :
    ∃ m : Valuation, ∀ v, S v → m.ints v.text = r v ∧ m.arrays v.text = A v := by
  -- a text is read as some version that is written so
  let decode : String → Version := fun t => Classical.epsilon fun v => S v ∧ v.text = t
  have hdecode : ∀ v, S v → S (decode v.text) ∧ (decode v.text).text = v.text := fun v hv =>
    Classical.epsilon_spec (p := fun w => S w ∧ w.text = v.text) ⟨v, hv, rfl⟩
  refine ⟨⟨fun t => r (decode t), fun t => A (decode t)⟩, ?_⟩
  intro v hv
  exact htext _ _ (hdecode v hv).1 hv (hdecode v hv).2

/-! ## Terms -/

namespace Term

/-- The value of a term. -/
def eval (z : ZeroDivision) (m : Valuation) : {s : Srt} → Term s → s.Carrier
  | _, numeral n => (n : Int)
  | _, const name => m.ints name
  | _, array name => m.arrays name
  | _, select a i => a.eval z m (i.eval z m)
  | _, neg t => -(t.eval z m)
  | _, arith op l r => op.value z (l.eval z m) (r.eval z m)
  | _, ite c t e => if c.eval z m then t.eval z m else e.eval z m
  | _, rel op l r => op.holds (l.eval z m) (r.eval z m)
  | _, not t => !(t.eval z m)
  | _, falsity => false

variable (z : ZeroDivision) (m : Valuation)

theorem eval_ofInt (n : Int) : (ofInt n).eval z m = n := by
  unfold ofInt
  split
  · show -((n.natAbs : Nat) : Int) = n
    omega
  · show ((n.natAbs : Nat) : Int) = n
    omega

theorem eval_ofTruth (t : Term .bool) : (ofTruth t).eval z m = truthValue (t.eval z m) := rfl

theorem eval_toTruth (t : Term .int) :
    (toTruth t).eval z m = decide (t.eval z m ≠ 0) := by
  show (!decide (t.eval z m = ((0 : Nat) : Int))) = _
  simp

end Term

theorem Cmp.eval_term (z : ZeroDivision) (m : Valuation) (l r : Term .int) (op : Cmp) :
    (op.term l r).eval z m = op.holds (l.eval z m) (r.eval z m) := by
  cases op with
  | ne =>
    show (!decide _) = decide _
    simp
  | _ => rfl

/-! ## Expressions -/

/-- The arrays that an expression reads from, with repetitions. -/
def Expr.arrays {ν : Type} : Expr ν → List ν
  | lit _ => []
  | var _ => []
  | index a i => a :: i.arrays
  | unary _ e => e.arrays
  | binary _ l r => l.arrays ++ r.arrays

/-- The terms of an expression have its value, and its truth. -/
theorem Expr.eval_terms {z : ZeroDivision} {m : Valuation} {r₀ : Version → Int}
    {A : Version → Int → Int} {e : Expr Version} (hints : ∀ v ∈ e.names, m.ints v.text = r₀ v)
    (harrays : ∀ a ∈ e.arrays, m.arrays a.text = A a) :
    e.intTerm.eval z m = e.eval (Meaning.integers z fun a _ => A a) r₀ ∧
      e.boolTerm.eval z m = decide (e.eval (Meaning.integers z fun a _ => A a) r₀ ≠ 0) := by
  induction e with
  | lit n =>
    rw [intTerm, boolTerm, Term.eval_toTruth, Term.eval_ofInt]
    exact ⟨rfl, rfl⟩
  | var x =>
    have hx := hints x (by simp [names])
    rw [intTerm, boolTerm, Term.eval_toTruth]
    simp only [Term.eval, hx]
    exact ⟨rfl, rfl⟩
  | index a i ih =>
    have ha := harrays a (by simp [arrays])
    have hi := (ih (fun v hv => hints v (by simp [names, hv]))
      fun v hv => harrays v (by simp [arrays, hv])).1
    rw [intTerm, boolTerm, Term.eval_toTruth]
    simp only [Term.eval, ha, hi]
    exact ⟨rfl, rfl⟩
  | unary op e ih =>
    obtain ⟨hint, hbool⟩ := ih hints harrays
    cases op with
    | neg =>
      rw [intTerm, boolTerm, Term.eval_toTruth]
      simp only [Term.eval, hint]
      exact ⟨rfl, rfl⟩
    | not =>
      have hnot : (Term.not e.boolTerm).eval z m =
          decide (e.eval (Meaning.integers z fun a _ => A a) r₀ = 0) := by
        rw [Term.eval, hbool, decide_not, Bool.not_not]
      have hvalue : (unary .not e).eval (Meaning.integers z fun a _ => A a) r₀ =
          truthValue (decide (e.eval (Meaning.integers z fun a _ => A a) r₀ = 0)) := rfl
      rw [intTerm, boolTerm, Term.eval_ofTruth, hnot, hvalue]
      simp
  | binary op l r ihl ihr =>
    have hl := (ihl (fun v hv => hints v (by simp [names, hv]))
      fun v hv => harrays v (by simp [arrays, hv])).1
    have hr := (ihr (fun v hv => hints v (by simp [names, hv]))
      fun v hv => harrays v (by simp [arrays, hv])).1
    cases op with
    | arith op =>
      rw [intTerm, boolTerm, Term.eval_toTruth]
      simp only [Term.eval, hl, hr]
      exact ⟨rfl, rfl⟩
    | cmp op =>
      have hvalue : (binary (.cmp op) l r).eval (Meaning.integers z fun a _ => A a) r₀ =
          truthValue (op.holds (l.eval (Meaning.integers z fun a _ => A a) r₀)
            (r.eval (Meaning.integers z fun a _ => A a) r₀)) := rfl
      rw [intTerm, boolTerm, Term.eval_ofTruth, Cmp.eval_term, hl, hr, hvalue]
      simp

/-! ## Instructions -/

/-- The arrays that an instruction reads from, as far as it reaches the solver. -/
def Instr.arrays (instr : Instr) : List Version :=
  (instr.encoded?.map Expr.arrays).getD []

/-- The versions that the instructions of a list use as arrays. -/
def Code.arrays (code : Code) : List Version :=
  code.flatMap Instr.arrays

namespace Instr

variable {z : ZeroDivision} {m : Valuation} {r : Version → Int} {A : Version → Int → Int}
  {instr : Instr}

/-- The equation of an instruction is true if and only if it holds of the versions. -/
theorem eval_equation (hdef : ∀ v, instr.defined? = some v → m.ints v.text = r v)
    (huse : ∀ v ∈ instr.uses, m.ints v.text = r v)
    (harrays : ∀ a ∈ instr.arrays, m.arrays a.text = A a) :
    (∀ t, instr.equation? = some t → t.eval z m = true) ↔
      instr.Solved (Meaning.integers z fun a _ => A a) r := by
  unfold equation? Solved
  split
  · next target value =>
    have hvalue := (Expr.eval_terms (z := z) huse harrays).1
    simp only [Option.some.injEq, forall_eq', Term.eval, Rel.holds, hdef target rfl, hvalue,
      decide_eq_true_eq]
  · next result first second guard =>
    have hguard := (Expr.eval_terms (z := z) (e := guard)
      (fun v hv => huse v (by simp [uses, hv])) harrays).2
    simp only [Option.some.injEq, forall_eq', Term.eval, Rel.holds, hdef result rfl, hguard,
      huse first (by simp [uses]), huse second (by simp [uses]), decide_eq_true_eq,
      Meaning.truth_integers]
  · next hdefine hjoin =>
    simp only [reduceCtorEq, false_imp_iff, implies_true]

/-- The goal of an assertion is true if and only if its condition holds of the versions. -/
theorem eval_goal (huse : ∀ v ∈ instr.uses, m.ints v.text = r v)
    (harrays : ∀ a ∈ instr.arrays, m.arrays a.text = A a) :
    (∀ t, instr.goal? = some t → t.eval z m = true) ↔
      instr.Passed (Meaning.integers z fun a _ => A a) r := by
  cases instr with
  | check cond =>
    have hcond := (Expr.eval_terms (z := z) huse harrays).2
    simp only [goal?, Option.some.injEq, forall_eq', hcond, Passed]
    rfl
  | define target value => simp [goal?, Passed]
  | join result operands guard => simp [goal?, Passed]

end Instr

namespace Code

variable {z : ZeroDivision} {m : Valuation} {r : Version → Int} {A : Version → Int → Int}
  {code : Code}

/-- The equations of a list are true if and only if the values of the versions solve it. -/
theorem eval_equations (hdef : ∀ v ∈ defined code, m.ints v.text = r v)
    (huse : ∀ v ∈ uses code, m.ints v.text = r v)
    (harrays : ∀ a ∈ arrays code, m.arrays a.text = A a) :
    (∀ t ∈ equations code, t.eval z m = true) ↔
      Solved (Meaning.integers z fun a _ => A a) r code := by
  have hinstr : ∀ instr ∈ code, (∀ t, instr.equation? = some t → t.eval z m = true) ↔
      instr.Solved (Meaning.integers z fun a _ => A a) r := fun instr hmem =>
    Instr.eval_equation (fun v hv => hdef v (mem_defined.mpr ⟨instr, hmem, hv⟩))
      (fun v hv => huse v (mem_uses.mpr ⟨instr, hmem, hv⟩))
      fun a ha => harrays a (List.mem_flatMap.mpr ⟨instr, hmem, ha⟩)
  simp only [equations, List.mem_filterMap, forall_exists_index, and_imp]
  constructor
  · exact fun h instr hmem => (hinstr instr hmem).mp fun t ht => h t instr hmem ht
  · exact fun h t instr hmem ht => (hinstr instr hmem).mpr (h instr hmem) t ht

/-- The goals of a list are true if and only if its assertions hold of the versions. -/
theorem eval_goals (huse : ∀ v ∈ uses code, m.ints v.text = r v)
    (harrays : ∀ a ∈ arrays code, m.arrays a.text = A a) :
    (∀ t ∈ goals code, t.eval z m = true) ↔
      Passed (Meaning.integers z fun a _ => A a) r code := by
  have hinstr : ∀ instr ∈ code, (∀ t, instr.goal? = some t → t.eval z m = true) ↔
      instr.Passed (Meaning.integers z fun a _ => A a) r := fun instr hmem =>
    Instr.eval_goal (fun v hv => huse v (mem_uses.mpr ⟨instr, hmem, hv⟩))
      fun a ha => harrays a (List.mem_flatMap.mpr ⟨instr, hmem, ha⟩)
  simp only [goals, List.mem_filterMap, forall_exists_index, and_imp]
  constructor
  · exact fun h instr hmem => (hinstr instr hmem).mp fun t ht => h t instr hmem ht
  · exact fun h t instr hmem ht => (hinstr instr hmem).mpr (h instr hmem) t ht

end Code

/-! ## Scripts -/

namespace Script

/-- All constraints and goals of a script are true. -/
def Holds (z : ZeroDivision) (m : Valuation) (s : Script) : Prop :=
  ∀ t ∈ s.constraints ++ s.goals, t.eval z m = true

/-- Some valuation makes all constraints and goals of a script true. This is about its terms alone:
a valuation has an integer and an array for every name, whatever sort it is declared with, while a
solver refuses a script that uses a name in another sort than it declares. Its answer is
`Script.IsSat`. -/
def Satisfiable (z : ZeroDivision) (s : Script) : Prop :=
  ∃ m, s.Holds z m

/-- The verification script of a list of instructions is true if and only if the values of the
versions solve the equations of the list and pass its assertions. -/
theorem holds_verification {z : ZeroDivision} {m : Valuation} {r : Version → Int}
    {A : Version → Int → Int} {code : Code}
    (hdef : ∀ v ∈ Code.defined code, m.ints v.text = r v)
    (huse : ∀ v ∈ Code.uses code, m.ints v.text = r v)
    (harrays : ∀ a ∈ Code.arrays code, m.arrays a.text = A a) :
    (verification code).Holds z m ↔
      Code.Solved (Meaning.integers z fun a _ => A a) r code ∧
        Code.Passed (Meaning.integers z fun a _ => A a) r code :=
  List.forall_mem_append.trans
    (and_congr (Code.eval_equations hdef huse harrays) (Code.eval_goals huse harrays))

/-- The same for the values that the valuation itself gives to the texts of the versions. -/
theorem holds_verification_iff {z : ZeroDivision} {m : Valuation} {code : Code} :
    (verification code).Holds z m ↔
      Code.Satisfied (Meaning.integers z fun a _ => m.arrays a.text) (fun v => m.ints v.text)
        code :=
  holds_verification (fun _ _ => rfl) (fun _ _ => rfl) fun _ _ => rfl

end Script

end WhileSmt
