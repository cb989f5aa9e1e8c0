import Mathlib.Data.List.Forall2
import WhileSmt.Proofs.Optimize.NormalForm

/-!
What the passes leave in place. Constant propagation puts literals for parts of expressions and
changes nothing else, and the elimination of dead code drops definitions and changes nothing else.
So whatever passes run, joins and assertions keep their order, results and operands, and what is
read and was defined is still defined.

Main statements: the solutions of a list are those of its propagated form, in which each
instruction says the same as before (`Code.propagate_same_solutions`), and what any rounds of any
passes leave (`Code.optimizeWith_frame`).
-/

namespace WhileSmt

/-! ## Expressions -/

namespace Expr

variable {ν : Type}

/-- Some parts of an expression have been replaced by literals. -/
inductive Shrinks : Expr ν → Expr ν → Prop where
  | refl (e : Expr ν) : Shrinks e e
  | lit (e : Expr ν) (n : Int64) : Shrinks e (.lit n)
  | index {a : ν} {i i' : Expr ν} : Shrinks i i' → Shrinks (.index a i) (.index a i')
  | unary {op : UnOp} {e e' : Expr ν} : Shrinks e e' → Shrinks (.unary op e) (.unary op e')
  | binary {op : BinOp} {l l' r r' : Expr ν} :
      Shrinks l l' → Shrinks r r' → Shrinks (.binary op l r) (.binary op l' r')

theorem Shrinks.trans {e₁ e₂ e₃ : Expr ν} (h₁ : Shrinks e₁ e₂) (h₂ : Shrinks e₂ e₃) :
    Shrinks e₁ e₃ := by
  induction h₁ generalizing e₃ with
  | refl e => exact h₂
  | lit e n =>
    -- nothing but a literal comes from a literal
    cases h₂ with
    | refl => exact .lit e n
    | lit _ m => exact .lit e m
  | index h ih =>
    cases h₂ with
    | refl => exact .index h
    | lit _ n => exact .lit _ n
    | index h₂ => exact .index (ih h₂)
  | unary h ih =>
    cases h₂ with
    | refl => exact .unary h
    | lit _ n => exact .lit _ n
    | unary h₂ => exact .unary (ih h₂)
  | binary hl hr ihl ihr =>
    cases h₂ with
    | refl => exact .binary hl hr
    | lit _ n => exact .lit _ n
    | binary hl₂ hr₂ => exact .binary (ihl hl₂) (ihr hr₂)

theorem Shrinks.scalars {e e' : Expr ν} (h : Shrinks e e') {x : ν} (hx : x ∈ e'.scalars) :
    x ∈ e.scalars := by
  induction h with
  | refl e => exact hx
  | lit e n => cases hx
  | index _ ih => exact ih hx
  | unary _ ih => exact ih hx
  | binary _ _ ihl ihr =>
    exact List.mem_append.mpr ((List.mem_append.mp hx).imp ihl ihr)

theorem Shrinks.arrays {e e' : Expr ν} (h : Shrinks e e') {a : ν} (ha : a ∈ e'.arrays) :
    a ∈ e.arrays := by
  induction h with
  | refl e => exact ha
  | lit e n => cases ha
  | index _ ih => exact List.mem_cons.mpr ((List.mem_cons.mp ha).imp_right ih)
  | unary _ ih => exact ih ha
  | binary _ _ ihl ihr =>
    exact List.mem_append.mpr ((List.mem_append.mp ha).imp ihl ihr)

theorem Shrinks.names {e e' : Expr ν} (h : Shrinks e e') {x : ν} (hx : x ∈ e'.names) :
    x ∈ e.names := by
  rcases scalars_or_arrays hx with hx | hx
  · exact names_of_scalars (h.scalars hx)
  · exact names_of_arrays (h.arrays hx)

theorem shrinks_fold (constant? : ν → Option Int64) (e : Expr ν) :
    Shrinks e (e.fold constant?) := by
  induction e with
  | lit n => exact .refl _
  | var x =>
    unfold fold
    split
    · exact .lit _ _
    · exact .refl _
  | index a i ih => exact .index ih
  | unary op e ih =>
    rw [fold]
    rcases foldUnary_cases op (e.fold constant?) with ⟨n, heq⟩ | heq
    · rw [heq]
      exact .lit _ n
    · rw [heq]
      exact .unary ih
  | binary op l r ihl ihr =>
    rw [fold]
    rcases foldBinary_cases op (l.fold constant?) (r.fold constant?) with ⟨n, heq⟩ | heq
    · rw [heq]
      exact .lit _ n
    · rw [heq]
      exact .binary ihl ihr

end Expr

/-! ## Instructions -/

namespace Instr

/-- The same instruction, but for parts of its expression that have been replaced by literals. -/
inductive Shrinks : Instr → Instr → Prop where
  | define {target : Version} {value value' : Expr Version} :
      value.Shrinks value' → Shrinks (.define target value) (.define target value')
  | join {result : Version} {operands : List Version} {guard guard' : Option (Expr Version)} :
      Option.Rel Expr.Shrinks guard guard' →
      Shrinks (.join result operands guard) (.join result operands guard')
  | check {cond cond' : Expr Version} :
      cond.Shrinks cond' → Shrinks (.check cond) (.check cond')

/-- What stays of a join or an assertion whatever happens to its expression: the result and the
operands of the join. -/
def frame? : Instr → Option (Option (Version × List Version))
  | define _ _ => none
  | join result operands _ => some (some (result, operands))
  | check _ => some none

namespace Shrinks

variable {instr instr' i₁ i₂ i₃ : Instr}

theorem refl (instr : Instr) : Shrinks instr instr := by
  cases instr with
  | define target value => exact .define (.refl value)
  | check cond => exact .check (.refl cond)
  | join result operands guard =>
    cases guard with
    | none => exact .join .none
    | some guard => exact .join (.some (.refl guard))

theorem trans (h₁ : Shrinks i₁ i₂) (h₂ : Shrinks i₂ i₃) : Shrinks i₁ i₃ := by
  cases h₁ with
  | define h₁ =>
    cases h₂ with
    | define h₂ => exact .define (h₁.trans h₂)
  | check h₁ =>
    cases h₂ with
    | check h₂ => exact .check (h₁.trans h₂)
  | join h₁ =>
    cases h₂ with
    | join h₂ =>
      cases h₁ with
      | none => exact .join h₂
      | some h₁ =>
        cases h₂ with
        | some h₂ => exact .join (.some (h₁.trans h₂))

theorem uses (h : Shrinks instr instr') {v : Version} (hv : v ∈ instr'.uses) : v ∈ instr.uses := by
  cases h with
  | define h => exact h.names hv
  | check h => exact h.names hv
  | join h =>
    rcases List.mem_append.mp hv with hv | hv
    · exact List.mem_append_left _ hv
    · refine List.mem_append_right _ ?_
      cases h with
      | none => exact hv
      | some h => exact h.names hv

theorem defined?_eq (h : Shrinks instr instr') : instr'.defined? = instr.defined? := by
  cases h <;> rfl

theorem frame?_eq (h : Shrinks instr instr') : instr'.frame? = instr.frame? := by
  cases h <;> rfl

theorem heads_eq (h : Shrinks instr instr') : instr'.heads = instr.heads := by
  cases h <;> rfl

theorem exists_expr (h : Shrinks instr instr') {e' : Expr Version} (he : instr'.expr? = some e') :
    ∃ e, instr.expr? = some e ∧ e.Shrinks e' := by
  cases h with
  | define h =>
    cases he
    exact ⟨_, rfl, h⟩
  | check h =>
    cases he
    exact ⟨_, rfl, h⟩
  | join h =>
    cases h with
    | none => cases he
    | some h =>
      cases he
      exact ⟨_, rfl, h⟩

end Shrinks

theorem shrinks_fold (table : Constants) (instr : Instr) : Shrinks instr (instr.fold table) := by
  cases instr with
  | define target value => exact .define (value.shrinks_fold _)
  | check cond => exact .check (cond.shrinks_fold _)
  | join result operands guard =>
    cases guard with
    | none => exact .join .none
    | some guard => exact .join (.some (guard.shrinks_fold _))

/-- The value of the expression of an instruction. -/
def value? {δ : Type} (M : Meaning Version δ) (r : Version → δ) (instr : Instr) : Option δ :=
  instr.expr?.map (Expr.eval M r)

theorem value?_fold {z : ZeroDivision} {arrays : Version → Int → Int → Int} {r : Version → Int}
    {table : Constants} (h : table.Sound r) (instr : Instr) :
    (instr.fold table).value? (Meaning.integers z arrays) r =
      instr.value? (Meaning.integers z arrays) r := by
  unfold value?
  rw [expr?_fold, Option.map_map]
  refine congrArg (Option.map · instr.expr?) ?_
  funext e
  exact Expr.eval_fold (fun v n hv => h v n (Constants.mem_of_get? hv)) e

end Instr

/-! ## Constant propagation -/

namespace Code

/-- A walk with a table that is true of a solution keeps every instruction and the value of its
expression: what the table learns on the way is true of the solution as well. -/
theorem forall₂_foldWith {z : ZeroDivision} {arrays : Version → Int → Int → Int}
    {r : Version → Int} {table : Constants} (htable : table.Sound r) {code : Code}
    (h : Solved (Meaning.integers z arrays) r code) :
    List.Forall₂ (fun instr instr' => instr.Shrinks instr' ∧
        instr'.value? (Meaning.integers z arrays) r = instr.value? (Meaning.integers z arrays) r)
      code (foldWith table code) := by
  induction code generalizing table with
  | nil => exact .nil
  | cons instr rest ih =>
    rw [solved_cons] at h
    have hfirst := (Instr.fold_iff htable instr).1.mpr h.1
    exact .cons ⟨instr.shrinks_fold table, instr.value?_fold htable⟩ (ih (htable.add hfirst) h.2)

/-- Constant propagation keeps exactly the values that satisfy a list. In a solution, the two lists
agree instruction by instruction: the same targets, results and operands, and expressions of the
same value. No operation on literals is left that has a value, and no scalar that the list defines
as a literal. -/
theorem propagate_same_solutions (code : Code) (z : ZeroDivision) :
    (∀ arrays r, Satisfied (Meaning.integers z arrays) r code ↔
      Satisfied (Meaning.integers z arrays) r (propagate code)) ∧
    (∀ arrays r, Solved (Meaning.integers z arrays) r code →
      List.Forall₂ (fun instr instr' => instr.Shrinks instr' ∧
          instr'.value? (Meaning.integers z arrays) r = instr.value? (Meaning.integers z arrays) r)
        code (propagate code)) ∧
    ∀ e ∈ exprs (propagate code),
      e.Folded ∧ ∀ v ∈ e.scalars, ∀ n, Instr.define v (.lit n) ∉ code := by
  refine ⟨fun arrays r => (satisfied_propagate code).symm, ?_, ?_⟩
  · intro arrays r h
    exact forall₂_foldWith (sound_constants h fun _ _ hmem => hmem) h
  · intro e he
    obtain ⟨hfolded, hscalars⟩ := mem_exprs_foldWith he
    refine ⟨hfolded, fun v hv n hmem => ?_⟩
    exact Constants.get?_eq_none_iff.mp (hscalars v hv) n (mem_constants_iff.mpr hmem)

/-! ## Dropping definitions -/

/-- Definitions have been dropped and expressions have been shrunk; all else is as before. -/
inductive Trims : Code → Code → Prop where
  | nil : Trims [] []
  | drop {target : Version} {value : Expr Version} {rest rest' : Code} :
      Trims rest rest' → Trims (.define target value :: rest) rest'
  | keep {instr instr' : Instr} {rest rest' : Code} :
      instr.Shrinks instr' → Trims rest rest' → Trims (instr :: rest) (instr' :: rest')

namespace Trims

variable {code code' c₁ c₂ c₃ : Code}

theorem refl (code : Code) : Trims code code := by
  induction code with
  | nil => exact .nil
  | cons instr rest ih => exact .keep (.refl instr) ih

theorem trans (h₁ : Trims c₁ c₂) (h₂ : Trims c₂ c₃) : Trims c₁ c₃ := by
  induction h₁ generalizing c₃ with
  | nil => exact h₂
  | drop _ ih => exact .drop (ih h₂)
  | keep hinstr _ ih =>
    cases h₂ with
    | drop h₂ =>
      cases hinstr with
      | define _ => exact .drop (ih h₂)
    | keep hinstr₂ h₂ => exact .keep (hinstr.trans hinstr₂) (ih h₂)

/-- Nothing is left that was not there in a longer form. -/
theorem exists_of_mem (h : Trims code code') {instr' : Instr} (hmem : instr' ∈ code') :
    ∃ instr ∈ code, instr.Shrinks instr' := by
  induction h with
  | nil => cases hmem
  | drop _ ih =>
    obtain ⟨instr, hinstr, hshrinks⟩ := ih hmem
    exact ⟨instr, List.mem_cons_of_mem _ hinstr, hshrinks⟩
  | keep hfirst _ ih =>
    rcases List.mem_cons.mp hmem with rfl | hmem
    · exact ⟨_, List.mem_cons_self, hfirst⟩
    · obtain ⟨instr, hinstr, hshrinks⟩ := ih hmem
      exact ⟨instr, List.mem_cons_of_mem _ hinstr, hshrinks⟩

/-- Joins and assertions stay, in order. -/
theorem frames (h : Trims code code') :
    code'.filterMap Instr.frame? = code.filterMap Instr.frame? := by
  induction h with
  | nil => rfl
  | drop _ ih => exact ih
  | keep hinstr _ ih => rw [List.filterMap_cons, List.filterMap_cons, hinstr.frame?_eq, ih]

theorem defined_sublist (h : Trims code code') : (defined code').Sublist (defined code) := by
  unfold defined
  induction h with
  | nil => exact .slnil
  | drop _ ih => exact ih.cons _
  | @keep instr instr' rest rest' hinstr _ ih =>
    rw [List.filterMap_cons, List.filterMap_cons, hinstr.defined?_eq]
    cases instr.defined? with
    | none => exact ih
    | some v => exact ih.cons_cons v

theorem uses (h : Trims code code') {v : Version} (hv : v ∈ Code.uses code') :
    v ∈ Code.uses code := by
  obtain ⟨instr', hmem, huse⟩ := mem_uses.mp hv
  obtain ⟨instr, hinstr, hshrinks⟩ := h.exists_of_mem hmem
  exact mem_uses.mpr ⟨instr, hinstr, hshrinks.uses huse⟩

theorem checkSingle (h : Trims code code') (hsingle : Code.checkSingle code = .ok ()) :
    Code.checkSingle code' = .ok () := by
  rw [checkSingle_eq_ok_iff] at hsingle ⊢
  exact hsingle.sublist h.defined_sublist

end Trims

theorem trims_foldWith (table : Constants) (code : Code) : Trims code (foldWith table code) := by
  induction code generalizing table with
  | nil => exact .nil
  | cons instr rest ih => exact .keep (instr.shrinks_fold table) (ih _)

/-- Filtering instructions trims a list if only definitions are lost. -/
theorem trims_filter {p : Instr → Bool} {code : Code}
    (h : ∀ instr ∈ code, p instr = false → ∃ target value, instr = .define target value) :
    Trims code (code.filter p) := by
  induction code with
  | nil => exact .nil
  | cons instr rest ih =>
    rw [List.forall_mem_cons] at h
    cases hp : p instr with
    | true =>
      rw [List.filter_cons_of_pos hp]
      exact .keep (.refl instr) (ih h.2)
    | false =>
      obtain ⟨target, value, rfl⟩ := h.1 hp
      rw [List.filter_cons_of_neg (by simp [hp])]
      exact .drop (ih h.2)

theorem trims_sweep (code : Code) : Trims code (sweep code) := by
  refine trims_filter ?_
  intro instr _ hdead
  cases instr with
  | define target value => exact ⟨target, value, rfl⟩
  | join result operands guard => cases hdead
  | check cond => cases hdead

/-! ## Whole runs -/

/-- What is left of a list: a trimmed form in which every version that is read is defined if it was
defined before. -/
structure Frames (code left : Code) : Prop where
  trims : Trims code left
  anchored : ∀ v ∈ defined code, v ∈ uses left → v ∈ defined left

namespace Frames

variable {code left : Code}

theorem refl (code : Code) : Frames code code :=
  ⟨.refl code, fun _ hv _ => hv⟩

theorem propagate (h : Frames code left) : Frames code (propagate left) where
  trims := h.trims.trans (trims_foldWith _ left)
  anchored := by
    intro v hv huse
    rw [Code.propagate, defined_foldWith]
    exact h.anchored v hv ((trims_foldWith _ left).uses huse)

/-- A version that is read after a sweep was read before it, so its definition is not dropped. -/
theorem sweep (h : Frames code left) : Frames code (sweep left) where
  trims := h.trims.trans (trims_sweep left)
  anchored := by
    intro v hv huse
    have hread : v ∈ uses left := (trims_sweep left).uses huse
    obtain ⟨instr, hmem, hdef⟩ := mem_defined.mp (h.anchored v hv hread)
    refine mem_defined.mpr ⟨instr, mem_sweep.mpr ⟨hmem, ?_⟩, hdef⟩
    cases instr with
    | define target value =>
      cases hdef
      exact decide_eq_true hread
    | join result operands guard => rfl
    | check cond => rfl

theorem eliminateDead (h : Frames code left) : Frames code (eliminateDead left) := by
  have hgeneral : ∀ left, Frames code left → Frames code (Code.eliminateDead left) := fun left =>
    eliminateDead_induct (fun _ _ ih h => ih h.sweep) (fun _ _ h => h) left
  exact hgeneral left h

theorem run (h : Frames code left) (pass : Pass) : Frames code (pass.run left).1 := by
  cases pass with
  | constants => exact h.propagate
  | deadCode => exact h.eliminateDead

end Frames

theorem frames_optimizeWith (passes : List Pass) (limit : Nat) (code : Code) :
    Frames code (optimizeWith passes limit code).code :=
  Optimized.run_keeps (fun pass _ _ h => h.run pass) limit (Frames.refl code)

/-- Whatever passes run in whatever order, and however many rounds, definitions are dropped and
expressions are shrunk, and nothing else: all joins and assertions stay in order with their results
and operands, the defined versions are some of those before, so that none is defined twice if none
was, and no version is read that was not, or that was defined and no longer is. -/
theorem optimizeWith_frame (passes : List Pass) (limit : Nat) (code : Code) :
    ∃ left, (optimizeWith passes limit code).code = left ∧ Trims code left ∧
      left.filterMap Instr.frame? = code.filterMap Instr.frame? ∧
      (defined left).Sublist (defined code) ∧
      (checkSingle code = .ok () → checkSingle left = .ok ()) ∧
      (∀ v ∈ uses left, v ∈ uses code) ∧
      ∀ v ∈ defined code, v ∈ uses left → v ∈ defined left := by
  have hframes := frames_optimizeWith passes limit code
  exact ⟨_, rfl, hframes.trims, hframes.trims.frames, hframes.trims.defined_sublist,
    hframes.trims.checkSingle, fun _ => hframes.trims.uses, hframes.anchored⟩

end Code

end WhileSmt
