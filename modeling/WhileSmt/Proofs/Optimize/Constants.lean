import WhileSmt.Optimize.Constants
import WhileSmt.Proofs.Integers

/-!
Constant propagation over the integers. An operation on 64-bit literals that has a value has the
value over the integers, so folding with a table that is true of the versions changes no value.

Main statement: a list and its propagated form are satisfied by the same values
(`Code.satisfied_propagate`).
-/

namespace WhileSmt

/-! ## Operations on literals -/

theorem toInt_ofBool (b : Bool) : (ofBool b).toInt = truthValue b := by
  cases b <;> rfl

theorem toInt_eq_zero {a : Int64} : a.toInt = 0 ↔ a = 0 :=
  ⟨fun h => Int64.toInt_inj.mp h, fun h => by rw [h]; rfl⟩

/-- Where an operation on 64-bit integers has a value, it is the value over the integers. -/
theorem Arith.toInt_eval? (z : ZeroDivision) {op : Arith} {a b n : Int64}
    (h : op.eval? a b = some n) : n.toInt = op.value z a.toInt b.toInt := by
  cases op with
  | add => exact Text.narrow?_eq_some_iff.mp h
  | sub => exact Text.narrow?_eq_some_iff.mp h
  | mul => exact Text.narrow?_eq_some_iff.mp h
  | div =>
    rw [eval?] at h
    split at h
    · cases h
    · next hb => rw [value, if_neg (mt toInt_eq_zero.mp hb), Text.narrow?_eq_some_iff.mp h]
  | mod =>
    rw [eval?] at h
    split at h
    · cases h
    · next hb =>
      obtain ⟨-, -, h⟩ := Option.bind_eq_some_iff.mp h
      rw [value, if_neg (mt toInt_eq_zero.mp hb), Text.narrow?_eq_some_iff.mp h]

theorem BinOp.toInt_eval? (z : ZeroDivision) {op : BinOp} {a b n : Int64}
    (h : op.eval? a b = some n) : n.toInt = op.value z a.toInt b.toInt := by
  cases op with
  | cmp op =>
    cases h
    exact toInt_ofBool _
  | arith op => exact Arith.toInt_eval? z h

theorem UnOp.toInt_eval? {op : UnOp} {a n : Int64} (h : op.eval? a = some n) :
    n.toInt = op.value a.toInt := by
  cases op with
  | not =>
    cases h
    rw [toInt_ofBool, value]
    simp only [toInt_eq_zero]
  | neg => exact Text.narrow?_eq_some_iff.mp h

/-! ## Expressions -/

namespace Expr

variable {ν : Type} {z : ZeroDivision} {arrays : ν → Int → Int → Int} {r : ν → Int}

theorem foldUnary_cases (op : UnOp) (e : Expr ν) :
    (∃ n, foldUnary op e = lit n) ∨ foldUnary op e = unary op e := by
  unfold foldUnary
  split
  · exact .inl ⟨_, rfl⟩
  · exact .inr rfl

theorem foldBinary_cases (op : BinOp) (l e : Expr ν) :
    (∃ n, foldBinary op l e = lit n) ∨ foldBinary op l e = binary op l e := by
  unfold foldBinary
  split
  · split
    · exact .inl ⟨_, rfl⟩
    · exact .inr rfl
  · exact .inr rfl

theorem eval_of_literal? {e : Expr ν} {n : Int64} (h : e.literal? = some n) :
    e.eval (Meaning.integers z arrays) r = n.toInt := by
  cases e with
  | lit m =>
    cases h
    rfl
  | _ => cases h

theorem eval_foldUnary (op : UnOp) (e : Expr ν) :
    (foldUnary op e).eval (Meaning.integers z arrays) r =
      (unary op e).eval (Meaning.integers z arrays) r := by
  unfold foldUnary
  split
  · next n h =>
    obtain ⟨a, ha, hn⟩ := Option.bind_eq_some_iff.mp h
    show n.toInt = op.value (e.eval (Meaning.integers z arrays) r)
    rw [eval_of_literal? ha, UnOp.toInt_eval? hn]
  · rfl

theorem eval_foldBinary (op : BinOp) (l e : Expr ν) :
    (foldBinary op l e).eval (Meaning.integers z arrays) r =
      (binary op l e).eval (Meaning.integers z arrays) r := by
  unfold foldBinary
  split
  · next a b ha hb =>
    split
    · next n hn =>
      show n.toInt = op.value z (l.eval (Meaning.integers z arrays) r)
        (e.eval (Meaning.integers z arrays) r)
      rw [eval_of_literal? ha, eval_of_literal? hb, BinOp.toInt_eval? z hn]
    · rfl
  · rfl

/-- Folding changes no value if the constants are those that the names hold. -/
theorem eval_fold {constant? : ν → Option Int64} (h : ∀ x n, constant? x = some n → r x = n.toInt)
    (e : Expr ν) :
    (e.fold constant?).eval (Meaning.integers z arrays) r =
      e.eval (Meaning.integers z arrays) r := by
  induction e with
  | lit n => rfl
  | var x =>
    unfold fold
    split
    · next n hn => exact (h x n hn).symm
    · rfl
  | index a i ih =>
    show arrays a (r a) ((i.fold constant?).eval (Meaning.integers z arrays) r) = _
    rw [ih]
    rfl
  | unary op e ih =>
    rw [fold, eval_foldUnary]
    show op.value ((e.fold constant?).eval (Meaning.integers z arrays) r) = _
    rw [ih]
    rfl
  | binary op l e ihl ihe =>
    rw [fold, eval_foldBinary]
    show op.value z ((l.fold constant?).eval (Meaning.integers z arrays) r)
      ((e.fold constant?).eval (Meaning.integers z arrays) r) = _
    rw [ihl, ihe]
    rfl

end Expr

/-! ## Instructions -/

/-- Every entry of the table is true of the versions. -/
def Constants.Sound (r : Version → Int) (table : Constants) : Prop :=
  ∀ v n, (v, n) ∈ table → r v = n.toInt

theorem Constants.mem_of_get? {table : Constants} {v : Version} {n : Int64}
    (h : table.get? v = some n) : (v, n) ∈ table := by
  unfold get? at h
  obtain ⟨l₁, l₂, rfl, -⟩ := List.lookup_eq_some_iff.mp h
  simp

theorem Instr.define_of_constant? {instr : Instr} {v : Version} {n : Int64}
    (h : instr.constant? = some (v, n)) : instr = .define v (.lit n) := by
  cases instr with
  | define target value =>
    cases value with
    | lit m =>
      cases h
      rfl
    | _ => cases h
  | _ => cases h

section

variable {z : ZeroDivision} {arrays : Version → Int → Int → Int} {r : Version → Int}

theorem Instr.fold_iff {table : Constants} (h : table.Sound r) (instr : Instr) :
    ((instr.fold table).Solved (Meaning.integers z arrays) r ↔
        instr.Solved (Meaning.integers z arrays) r) ∧
      ((instr.fold table).Passed (Meaning.integers z arrays) r ↔
        instr.Passed (Meaning.integers z arrays) r) := by
  have heval : ∀ e : Expr Version, (e.fold table.get?).eval (Meaning.integers z arrays) r =
      e.eval (Meaning.integers z arrays) r :=
    Expr.eval_fold fun v n hv => h v n (Constants.mem_of_get? hv)
  cases instr with
  | define target value => exact ⟨by simp only [fold, Solved, heval], Iff.rfl⟩
  | check cond => exact ⟨Iff.rfl, by simp only [fold, Passed, heval]⟩
  | join result operands guard =>
    refine ⟨?_, Iff.rfl⟩
    cases guard with
    | none => exact Iff.rfl
    | some guard =>
      rcases operands with _ | ⟨first, _ | ⟨second, _ | ⟨third, more⟩⟩⟩
      · exact Iff.rfl
      · exact Iff.rfl
      · simp only [fold, Option.map_some, Solved, heval]
      · exact Iff.rfl

/-- What a solved instruction adds to the table is true. -/
theorem Constants.Sound.add {table : Constants} (h : table.Sound r) {instr : Instr}
    (hsolved : instr.Solved (Meaning.integers z arrays) r) :
    Constants.Sound r (instr.constant?.toList ++ table) := by
  intro v n hmem
  rcases List.mem_append.mp hmem with hmem | hmem
  · rw [Option.mem_toList] at hmem
    rw [Instr.define_of_constant? hmem] at hsolved
    exact hsolved
  · exact h v n hmem

namespace Code

/-- Folding with a table that is true of the versions changes nothing. -/
theorem foldWith_iff {table : Constants} (h : table.Sound r) (code : Code) :
    Satisfied (Meaning.integers z arrays) r (foldWith table code) ↔
      Satisfied (Meaning.integers z arrays) r code := by
  induction code generalizing table with
  | nil => exact Iff.rfl
  | cons instr rest ih =>
    have hsolved : (instr.fold table).Solved (Meaning.integers z arrays) r ↔
        instr.Solved (Meaning.integers z arrays) r := (Instr.fold_iff h instr).1
    have hpassed : (instr.fold table).Passed (Meaning.integers z arrays) r ↔
        instr.Passed (Meaning.integers z arrays) r := (Instr.fold_iff h instr).2
    unfold Satisfied at ih ⊢
    simp only [foldWith_cons, solved_cons, passed_cons, hsolved, hpassed]
    -- the table grows by what the first instruction says, so that must hold first
    constructor
    · rintro ⟨⟨hfirst, hrest⟩, hfirst', hrest'⟩
      obtain ⟨hs, hp⟩ := (ih (h.add (hsolved.mpr hfirst))).mp ⟨hrest, hrest'⟩
      exact ⟨⟨hfirst, hs⟩, hfirst', hp⟩
    · rintro ⟨⟨hfirst, hrest⟩, hfirst', hrest'⟩
      obtain ⟨hs, hp⟩ := (ih (h.add (hsolved.mpr hfirst))).mpr ⟨hrest, hrest'⟩
      exact ⟨⟨hfirst, hs⟩, hfirst', hp⟩

theorem mem_constants {code : Code} {v : Version} {n : Int64} (h : (v, n) ∈ constants code) :
    Instr.define v (.lit n) ∈ code := by
  unfold constants at h
  rw [List.mem_reverse, List.mem_filterMap] at h
  obtain ⟨instr, hmem, hconst⟩ := h
  rw [← Instr.define_of_constant? hconst]
  exact hmem

/-- A definition as a literal survives folding. -/
theorem define_lit_mem_foldWith {code : Code} {v : Version} {n : Int64}
    (h : Instr.define v (.lit n) ∈ code) (table : Constants) :
    Instr.define v (.lit n) ∈ foldWith table code := by
  induction code generalizing table with
  | nil => cases h
  | cons instr rest ih =>
    rw [foldWith_cons]
    rcases List.mem_cons.mp h with rfl | h
    · exact List.mem_cons_self
    · exact List.mem_cons_of_mem _ (ih h _)

/-- The literal definitions of a list are true of every solution of it. -/
theorem sound_constants {code code' : Code} (hsolved : Solved (Meaning.integers z arrays) r code')
    (hmem : ∀ v n, Instr.define v (.lit n) ∈ code → Instr.define v (.lit n) ∈ code') :
    Constants.Sound r (constants code) := by
  intro v n h
  exact hsolved _ (hmem v n (mem_constants h))

/-- Constant propagation keeps exactly the values that satisfy a list. -/
theorem satisfied_propagate (code : Code) :
    Satisfied (Meaning.integers z arrays) r (propagate code) ↔
      Satisfied (Meaning.integers z arrays) r code := by
  constructor
  · intro h
    have hsound := sound_constants h.1 fun v n hmem => define_lit_mem_foldWith hmem _
    exact (foldWith_iff hsound code).mp h
  · intro h
    have hsound := sound_constants h.1 fun v n hmem => hmem
    exact (foldWith_iff hsound code).mpr h

end Code

end

/-! ## Names -/

namespace Code

theorem defined_foldWith (table : Constants) (code : Code) :
    defined (foldWith table code) = defined code := by
  induction code generalizing table with
  | nil => rfl
  | cons instr rest ih =>
    have hinstr : (instr.fold table).defined? = instr.defined? := by cases instr <;> rfl
    unfold defined at ih ⊢
    rw [foldWith_cons, List.filterMap_cons, List.filterMap_cons, hinstr, ih]

end Code

end WhileSmt
