import WhileSmt.Proofs.Expr.Parts
import WhileSmt.Proofs.Optimize.Rounds

/-!
The normal forms of the passes, and how fast the optimizer reaches them. Constant propagation has
nothing left to do if no operation on literals has a value and no expression reads a version that
is defined as a literal; the elimination of dead code has nothing left to do if every definition
is read. In code that reads no version before its definition, one walk of constant propagation is
enough, and dropping definitions does not undo it.

Main statements: what the passes leave unchanged (`Code.propagate_eq_self_iff`,
`Code.eliminateDead_eq_self_iff`), that one walk reaches the normal form
(`Code.Acyclic.propagated`), and that the optimizer changes a numbered program in one round at most
(`Program.optimize_one_round`).
-/

namespace WhileSmt

open Scope

/-! ## Expressions -/

namespace Expr

variable {ν : Type}

/-- No operation on literals is left that has a value. -/
def Folded (e : Expr ν) : Prop :=
  (∀ (op : UnOp) a, unary op (lit a) ∈ e.parts → op.eval? a = none) ∧
    ∀ (op : BinOp) a b, binary op (lit a) (lit b) ∈ e.parts → op.eval? a b = none

theorem folded_lit (n : Int64) : (lit n : Expr ν).Folded := by
  simp [Folded, parts]

theorem folded_var (x : ν) : (var x).Folded := by
  simp [Folded, parts]

theorem folded_index {a : ν} {i : Expr ν} : (index a i).Folded ↔ i.Folded := by
  simp [Folded, parts]

theorem folded_unary {op : UnOp} {e : Expr ν} :
    (unary op e).Folded ↔ e.Folded ∧ ∀ a, e = lit a → op.eval? a = none := by
  simp only [Folded, parts, List.mem_cons, unary.injEq, reduceCtorEq, false_or]
  constructor
  · rintro ⟨hun, hbin⟩
    exact ⟨⟨fun op a h => hun op a (.inr h), hbin⟩, fun a ha => hun op a (.inl ⟨rfl, ha.symm⟩)⟩
  · rintro ⟨⟨hun, hbin⟩, hself⟩
    refine ⟨?_, hbin⟩
    rintro op' a (⟨rfl, ha⟩ | h)
    · exact hself a ha.symm
    · exact hun op' a h

theorem folded_binary {op : BinOp} {l r : Expr ν} :
    (binary op l r).Folded ↔
      l.Folded ∧ r.Folded ∧ ∀ a b, l = lit a → r = lit b → op.eval? a b = none := by
  simp only [Folded, parts, List.mem_cons, List.mem_append, binary.injEq, reduceCtorEq, false_or]
  constructor
  · rintro ⟨hun, hbin⟩
    refine ⟨⟨fun op a h => hun op a (.inl h), fun op a b h => hbin op a b (.inr (.inl h))⟩,
      ⟨fun op a h => hun op a (.inr h), fun op a b h => hbin op a b (.inr (.inr h))⟩, ?_⟩
    intro a b ha hb
    exact hbin op a b (.inl ⟨rfl, ha.symm, hb.symm⟩)
  · rintro ⟨⟨hunl, hbinl⟩, ⟨hunr, hbinr⟩, hself⟩
    refine ⟨fun op a h => h.elim (hunl op a) (hunr op a), ?_⟩
    rintro op' a b (⟨rfl, ha, hb⟩ | h | h)
    · exact hself a b ha.symm hb.symm
    · exact hbinl op' a b h
    · exact hbinr op' a b h

theorem Folded.foldUnary {e : Expr ν} (h : e.Folded) (op : UnOp) : (foldUnary op e).Folded := by
  unfold Expr.foldUnary
  split
  · exact folded_lit _
  · next hnone =>
    refine folded_unary.mpr ⟨h, ?_⟩
    rintro a rfl
    exact hnone

theorem Folded.foldBinary {l r : Expr ν} (hl : l.Folded) (hr : r.Folded) (op : BinOp) :
    (foldBinary op l r).Folded := by
  unfold Expr.foldBinary
  split
  · next a b ha hb =>
    split
    · exact folded_lit _
    · next hnone =>
      refine folded_binary.mpr ⟨hl, hr, ?_⟩
      rintro a' b' rfl rfl
      cases ha
      cases hb
      exact hnone
  · next hnot =>
    refine folded_binary.mpr ⟨hl, hr, ?_⟩
    rintro a b rfl rfl
    exact absurd rfl (hnot a b rfl)

theorem foldUnary_eq_self {op : UnOp} {e : Expr ν} (h : (unary op e).Folded) :
    foldUnary op e = unary op e := by
  unfold foldUnary
  split
  · next n hn =>
    obtain ⟨a, ha, hval⟩ := Option.bind_eq_some_iff.mp hn
    rw [(folded_unary.mp h).2 a (literal?_eq_some.mp ha)] at hval
    cases hval
  · rfl

theorem foldBinary_eq_self {op : BinOp} {l r : Expr ν} (h : (binary op l r).Folded) :
    foldBinary op l r = binary op l r := by
  unfold foldBinary
  split
  · next a b ha hb =>
    rw [(folded_binary.mp h).2.2 a b (literal?_eq_some.mp ha) (literal?_eq_some.mp hb)]
  · rfl

/-- Folding carries out every operation on literals that has a value. -/
theorem folded_fold (constant? : ν → Option Int64) (e : Expr ν) : (e.fold constant?).Folded := by
  induction e with
  | lit n => exact folded_lit n
  | var x =>
    unfold fold
    split
    · exact folded_lit _
    · exact folded_var x
  | index a i ih => exact folded_index.mpr ih
  | unary op e ih => exact ih.foldUnary op
  | binary op l r ihl ihr => exact ihl.foldBinary ihr op

/-- Folding leaves only scalars that are not known to be constant. -/
theorem scalars_fold {constant? : ν → Option Int64} {e : Expr ν} {x : ν}
    (h : x ∈ (e.fold constant?).scalars) : x ∈ e.scalars ∧ constant? x = none := by
  induction e with
  | lit n => cases h
  | var y =>
    unfold fold at h
    split at h
    · cases h
    · next hy =>
      cases List.mem_singleton.mp h
      exact ⟨List.mem_singleton_self x, hy⟩
  | index a i ih => exact ih h
  | unary op e ih =>
    rcases foldUnary_cases op (e.fold constant?) with ⟨n, heq⟩ | heq
    · rw [fold, heq] at h
      cases h
    · rw [fold, heq] at h
      exact ih h
  | binary op l r ihl ihr =>
    rcases foldBinary_cases op (l.fold constant?) (r.fold constant?) with ⟨n, heq⟩ | heq
    · rw [fold, heq] at h
      cases h
    · rw [fold, heq] at h
      rcases List.mem_append.mp h with h | h
      · exact ⟨List.mem_append_left _ (ihl h).1, (ihl h).2⟩
      · exact ⟨List.mem_append_right _ (ihr h).1, (ihr h).2⟩

/-- A folded expression without constant scalars is left as it is. -/
theorem Folded.fold_eq_self {constant? : ν → Option Int64} {e : Expr ν} (h : e.Folded)
    (hscalars : ∀ x ∈ e.scalars, constant? x = none) : e.fold constant? = e := by
  induction e with
  | lit n => rfl
  | var x => simp only [fold, hscalars x (List.mem_singleton_self x)]
  | index a i ih => rw [fold, ih (folded_index.mp h) hscalars]
  | unary op e ih => rw [fold, ih (folded_unary.mp h).1 hscalars, foldUnary_eq_self h]
  | binary op l r ihl ihr =>
    have hl := ihl (folded_binary.mp h).1 fun x hx => hscalars x (List.mem_append_left _ hx)
    have hr := ihr (folded_binary.mp h).2.1 fun x hx => hscalars x (List.mem_append_right _ hx)
    rw [fold, hl, hr, foldBinary_eq_self h]

end Expr

/-! ## Constant propagation -/

/-- The expression of an instruction: the value of a definition, the guard of a join, or the
condition of an assertion. -/
def Instr.expr? : Instr → Option (Expr Version)
  | define _ value => some value
  | join _ _ guard => guard
  | check cond => some cond

theorem Instr.expr?_fold (table : Constants) (instr : Instr) :
    (instr.fold table).expr? = instr.expr?.map (Expr.fold table.get?) := by
  cases instr <;> rfl

theorem Instr.fold_eq_self {table : Constants} {instr : Instr}
    (h : ∀ e, instr.expr? = some e → e.fold table.get? = e) : instr.fold table = instr := by
  cases instr with
  | define target value => rw [fold, h value rfl]
  | check cond => rw [fold, h cond rfl]
  | join result operands guard =>
    cases guard with
    | none => rfl
    | some guard => rw [fold, Option.map_some, h guard rfl]

theorem Instr.uses_of_expr? {instr : Instr} {e : Expr Version} (h : instr.expr? = some e)
    {v : Version} (hv : v ∈ e.names) : v ∈ instr.uses := by
  cases instr with
  | define target value =>
    cases h
    exact hv
  | check cond =>
    cases h
    exact hv
  | join result operands guard =>
    cases h
    exact List.mem_append_right _ hv

namespace Constants

theorem get?_eq_none_iff {table : Constants} {v : Version} :
    table.get? v = none ↔ ∀ n, (v, n) ∉ table := by
  unfold get?
  rw [List.lookup_eq_none_iff]
  constructor
  · intro h n hmem
    simpa using h (v, n) hmem
  · rintro h ⟨w, n⟩ hmem
    refine bne_iff_ne.mpr ?_
    rintro rfl
    exact h n hmem

end Constants

namespace Code

/-- The expressions of a list of instructions. -/
def exprs (code : Code) : List (Expr Version) :=
  code.filterMap Instr.expr?

theorem mem_exprs {code : Code} {e : Expr Version} :
    e ∈ exprs code ↔ ∃ instr ∈ code, instr.expr? = some e :=
  List.mem_filterMap

/-- Nothing is left for constant propagation. -/
structure Propagated (code : Code) : Prop where
  folded : ∀ e ∈ exprs code, e.Folded
  replaced : ∀ e ∈ exprs code, ∀ v ∈ e.scalars, ∀ n, Instr.define v (.lit n) ∉ code

theorem Propagated.subset {code code' : Code} (h : Propagated code)
    (hsub : ∀ instr ∈ code', instr ∈ code) : Propagated code' := by
  have hexprs : ∀ e ∈ exprs code', e ∈ exprs code := by
    intro e he
    obtain ⟨instr, hmem, hexpr⟩ := mem_exprs.mp he
    exact mem_exprs.mpr ⟨instr, hsub instr hmem, hexpr⟩
  exact ⟨fun e he => h.folded e (hexprs e he),
    fun e he v hv n hmem => h.replaced e (hexprs e he) v hv n (hsub _ hmem)⟩

/-- Whatever the table holds of the definitions as literals, it changes nothing. -/
theorem Propagated.foldWith_eq {code rest : Code} (h : Propagated code)
    (hsub : ∀ instr ∈ rest, instr ∈ code) {table : Constants}
    (htable : ∀ v n, (v, n) ∈ table → Instr.define v (.lit n) ∈ code) :
    foldWith table rest = rest := by
  induction rest generalizing table with
  | nil => rfl
  | cons instr rest ih =>
    have hinstr := hsub instr List.mem_cons_self
    have hfold : instr.fold table = instr := by
      refine Instr.fold_eq_self ?_
      intro e he
      have hmem := mem_exprs.mpr ⟨instr, hinstr, he⟩
      refine (h.folded e hmem).fold_eq_self ?_
      intro v hv
      refine Constants.get?_eq_none_iff.mpr ?_
      exact fun n hn => h.replaced e hmem v hv n (htable v n hn)
    rw [foldWith_cons, hfold, ih (fun i hi => hsub i (List.mem_cons_of_mem _ hi))]
    intro v n hmem
    rcases List.mem_append.mp hmem with hmem | hmem
    · rw [← Instr.define_of_constant? (Option.mem_toList.mp hmem)]
      exact hinstr
    · exact htable v n hmem

/-- The expressions that a walk leaves are folded, and their scalars are not in its table. -/
theorem mem_exprs_foldWith {table : Constants} {code : Code} {e : Expr Version}
    (h : e ∈ exprs (foldWith table code)) :
    e.Folded ∧ ∀ v ∈ e.scalars, table.get? v = none := by
  induction code generalizing table with
  | nil => cases h
  | cons instr rest ih =>
    obtain ⟨i, hmem, hexpr⟩ := mem_exprs.mp h
    rcases List.mem_cons.mp hmem with rfl | hmem
    · rw [Instr.expr?_fold] at hexpr
      obtain ⟨e₀, -, rfl⟩ := Option.map_eq_some_iff.mp hexpr
      exact ⟨e₀.folded_fold _, fun v hv => (Expr.scalars_fold hv).2⟩
    · obtain ⟨hfolded, hscalars⟩ := ih (mem_exprs.mpr ⟨i, hmem, hexpr⟩)
      refine ⟨hfolded, ?_⟩
      intro v hv
      have hnone := Constants.get?_eq_none_iff.mp (hscalars v hv)
      exact Constants.get?_eq_none_iff.mpr fun n hn => hnone n (List.mem_append_right _ hn)

theorem mem_constants_iff {code : Code} {v : Version} {n : Int64} :
    (v, n) ∈ constants code ↔ Instr.define v (.lit n) ∈ code := by
  constructor
  · exact mem_constants
  · intro h
    rw [constants, List.mem_reverse, List.mem_filterMap]
    exact ⟨_, h, rfl⟩

/-- Constant propagation leaves exactly the lists unchanged that are in its normal form. -/
theorem propagate_eq_self_iff {code : Code} : propagate code = code ↔ Propagated code := by
  constructor
  · intro h
    have hleft : ∀ e ∈ exprs code,
        e.Folded ∧ ∀ v ∈ e.scalars, (constants code).get? v = none := by
      intro e he
      rw [← h] at he
      exact mem_exprs_foldWith he
    refine ⟨fun e he => (hleft e he).1, ?_⟩
    intro e he v hv n hmem
    exact Constants.get?_eq_none_iff.mp ((hleft e he).2 v hv) n (mem_constants_iff.mpr hmem)
  · intro h
    exact h.foldWith_eq (fun _ hi => hi) fun _ _ => mem_constants

theorem bound_of_define {code : Code} {v : Version} {value : Expr Version}
    (h : Instr.define v value ∈ code) : v ∈ bound code :=
  mem_bound.mpr ⟨_, h, rfl⟩

theorem bound_foldWith (table : Constants) (code : Code) :
    bound (foldWith table code) = bound code := by
  induction code generalizing table with
  | nil => rfl
  | cons instr rest ih =>
    have hinstr : (instr.fold table).bound? = instr.bound? := by
      cases instr with
      | define target value => rfl
      | check cond => rfl
      | join result operands guard =>
        cases guard with
        | none => rfl
        | some guard =>
          rcases operands with _ | ⟨first, _ | ⟨second, _ | ⟨third, more⟩⟩⟩ <;> rfl
    unfold bound at ih ⊢
    rw [foldWith_cons, List.filterMap_cons, List.filterMap_cons, hinstr, ih]

/-- In code that reads no version before its definition, a walk replaces every scalar that it leaves
defined as a literal: when the scalar is read, the definition has been folded. -/
theorem Acyclic.replaced_foldWith {table : Constants} {code : Code} (h : Acyclic code)
    {e : Expr Version} (he : e ∈ exprs (foldWith table code)) {v : Version} (hv : v ∈ e.scalars)
    (n : Int64) : Instr.define v (.lit n) ∉ foldWith table code := by
  induction code generalizing table with
  | nil => cases he
  | cons instr rest ih =>
    obtain ⟨hread, -, hrest⟩ := h
    intro hdef
    obtain ⟨i, hmem, hexpr⟩ := mem_exprs.mp he
    rcases List.mem_cons.mp hmem with rfl | hmem
    · -- the first instruction reads nothing that the list determines
      rw [Instr.expr?_fold] at hexpr
      obtain ⟨e₀, he₀, rfl⟩ := Option.map_eq_some_iff.mp hexpr
      have huse := Instr.uses_of_expr? he₀ (Expr.names_of_scalars (Expr.scalars_fold hv).1)
      have hbound := bound_of_define hdef
      rw [bound_foldWith] at hbound
      exact hread v huse hbound
    · have he' := mem_exprs.mpr ⟨i, hmem, hexpr⟩
      rcases List.mem_cons.mp hdef with hdef | hdef
      · -- a later instruction is folded with the value of this definition
        have hnone := Constants.get?_eq_none_iff.mp ((mem_exprs_foldWith he').2 v hv) n
        refine hnone (List.mem_append_left _ ?_)
        rw [← hdef]
        exact List.mem_singleton_self _
      · exact ih hrest he' hdef

/-- One walk of constant propagation is enough if no version is read before its definition. -/
theorem Acyclic.propagated {code : Code} (h : Acyclic code) : Propagated (propagate code) where
  folded := fun _ he => (mem_exprs_foldWith he).1
  replaced := fun _ he _ hv n => h.replaced_foldWith he hv n

/-! ## Dead code -/

/-- Every definition is read. -/
def Swept (code : Code) : Prop :=
  ∀ v ∈ targets code, v ∈ uses code

theorem sweep_eq_self_iff {code : Code} : sweep code = code ↔ Swept code := by
  unfold sweep Swept
  rw [List.filter_eq_self]
  constructor
  · intro h v hv
    obtain ⟨value, hmem⟩ := mem_targets.mp hv
    exact of_decide_eq_true (h _ hmem)
  · intro h instr hmem
    cases instr with
    | define target value => exact decide_eq_true (h target (mem_targets.mpr ⟨value, hmem⟩))
    | join result operands guard => rfl
    | check cond => rfl

theorem swept_eliminateDead (code : Code) : Swept (eliminateDead code) := by
  refine eliminateDead_induct (fun _ _ ih => ih) (fun code hread => ?_) code
  exact sweep_eq_self_iff.mp (unread_eq_nil_iff.mp hread)

/-- Eliminating dead code leaves exactly the lists unchanged in which every definition is read. -/
theorem eliminateDead_eq_self_iff {code : Code} : eliminateDead code = code ↔ Swept code := by
  constructor
  · intro h
    rw [← h]
    exact swept_eliminateDead code
  · intro h
    exact eliminateDead_of_read (unread_eq_nil_iff.mpr (sweep_eq_self_iff.mpr h))

end Code

/-! ## Rounds -/

namespace Optimized

theorem step_eq_self {o : Optimized} {pass : Pass} (h : (pass.run o.code).1 = o.code) :
    o.step pass = o := by
  have hflag : (pass.run o.code).2 = false :=
    Bool.eq_false_iff.mpr fun hchanged => (pass.run_changed_iff o.code).mp hchanged h
  simp [step, h, hflag]

/-- A pass that changes something is recorded. -/
theorem step_eq_self_or (o : Optimized) (pass : Pass) :
    o.step pass = o ∨ (o.step pass).applied.length = o.applied.length + 1 := by
  by_cases h : (pass.run o.code).1 = o.code
  · exact .inl (step_eq_self h)
  · exact .inr (by simp [step, (pass.run_changed_iff o.code).mpr h])

theorem length_applied_le (passes : List Pass) (o : Optimized) :
    o.applied.length ≤ (passes.foldl step o).applied.length := by
  induction passes generalizing o with
  | nil => exact Nat.le_refl _
  | cons pass rest ih =>
    have hrest := ih (o.step pass)
    rw [List.foldl_cons]
    rcases o.step_eq_self_or pass with h | h
    · rwa [h] at hrest ⊢
    · omega

/-- A round in which no pass is recorded has changed nothing. -/
theorem steps_eq_self_of_length {passes : List Pass} {o : Optimized}
    (h : (passes.foldl step o).applied.length = o.applied.length) : passes.foldl step o = o := by
  induction passes with
  | nil => rfl
  | cons pass rest ih =>
    rw [List.foldl_cons] at h ⊢
    rcases o.step_eq_self_or pass with hstep | hstep
    · rw [hstep] at h ⊢
      exact ih h
    · have hle := length_applied_le rest (o.step pass)
      omega

theorem steps_eq_self {passes : List Pass} {o : Optimized}
    (h : ∀ pass ∈ passes, (pass.run o.code).1 = o.code) : passes.foldl step o = o := by
  induction passes with
  | nil => rfl
  | cons pass rest ih =>
    rw [List.foldl_cons, step_eq_self (h pass List.mem_cons_self)]
    exact ih fun p hp => h p (List.mem_cons_of_mem _ hp)

/-- No round is counted if no pass changes anything. -/
theorem run_eq_self {passes : List Pass} {o : Optimized}
    (h : ∀ pass ∈ passes, (pass.run o.code).1 = o.code) (limit : Nat) : run passes limit o = o := by
  cases limit with
  | zero => rfl
  | succ limit =>
    rw [run, steps_eq_self h]
    exact if_pos rfl

/-- If one round leads to code that no pass changes, all rounds lead to it, and at most one of them
is counted. -/
theorem run_of_round {passes : List Pass} {o : Optimized} {normal : Code}
    (hround : (passes.foldl step o).code = normal)
    (hfixed : ∀ pass ∈ passes, (pass.run normal).1 = normal) {limit : Nat} (hlimit : 0 < limit) :
    (run passes limit o).code = normal ∧ (run passes limit o).rounds ≤ o.rounds + 1 := by
  obtain ⟨limit, rfl⟩ := Nat.exists_eq_add_one_of_ne_zero (Nat.ne_of_gt hlimit)
  rw [run]
  split
  · next hsame =>
    refine ⟨hround, ?_⟩
    rw [steps_eq_self_of_length hsame]
    exact Nat.le_succ _
  · rw [run_eq_self]
    · exact ⟨hround, Nat.le_refl _⟩
    · intro pass hpass
      show (pass.run (passes.foldl step o).code).1 = (passes.foldl step o).code
      rw [hround]
      exact hfixed pass hpass

end Optimized

/-! ## The optimizer -/

namespace Code

/-- No pass changes code in normal form. -/
theorem Propagated.run_eq_self {code : Code} (hpropagated : Propagated code)
    (hswept : Swept code) : ∀ pass ∈ Pass.all, (pass.run code).1 = code := by
  intro pass _
  cases pass with
  | constants => exact propagate_eq_self_iff.mpr hpropagated
  | deadCode => exact eliminateDead_eq_self_iff.mpr hswept

/-- A version that is read is an operand of a join or occurs in an expression. -/
theorem uses_cases {code : Code} {v : Version} (h : v ∈ uses code) :
    (∃ result operands guard, Instr.join result operands guard ∈ code ∧ v ∈ operands) ∨
      ∃ e ∈ exprs code, v ∈ e.names := by
  obtain ⟨instr, hmem, hv⟩ := mem_uses.mp h
  cases instr with
  | define target value => exact .inr ⟨value, mem_exprs.mpr ⟨_, hmem, rfl⟩, hv⟩
  | check cond => exact .inr ⟨cond, mem_exprs.mpr ⟨_, hmem, rfl⟩, hv⟩
  | join result operands guard =>
    rcases List.mem_append.mp hv with hv | hv
    · exact .inl ⟨result, operands, guard, hmem, hv⟩
    · cases guard with
      | none => cases hv
      | some guard => exact .inr ⟨guard, mem_exprs.mpr ⟨_, hmem, rfl⟩, hv⟩

end Code

theorem Expr.scalars_or_arrays {ν : Type} {e : Expr ν} {x : ν} (h : x ∈ e.names) :
    x ∈ e.scalars ∨ x ∈ e.arrays := by
  induction e with
  | lit n => cases h
  | var y => exact .inl h
  | index a i ih =>
    rcases List.mem_cons.mp h with rfl | h
    · exact .inr List.mem_cons_self
    · exact (ih h).imp_right (List.mem_cons_of_mem a)
  | unary op e ih => exact ih h
  | binary op l r ihl ihr =>
    rcases List.mem_append.mp h with h | h
    · exact (ihl h).imp (List.mem_append_left _) (List.mem_append_left _)
    · exact (ihr h).imp (List.mem_append_right _) (List.mem_append_right _)

/-- One walk of constant propagation and one elimination of dead code bring a numbered program into
a form that neither changes, so the optimizer counts one round at most and a second run does
nothing. What is left there of a definition as a literal is read by joins and as an array only, and
every operation that is left on literals has no value. -/
theorem Program.optimize_one_round (p : Program) :
    ∃ f normal, p.toSsa = .ok f ∧ Code.eliminateDead (Code.propagate f.code) = normal ∧
      Code.propagate normal = normal ∧ Code.eliminateDead normal = normal ∧
      (Code.optimizeWith Pass.all roundLimit f.code).rounds ≤ 1 ∧
      Code.optimize f.code = normal ∧
      Code.optimize (Code.optimize f.code) = Code.optimize f.code ∧
      (∀ v n, Instr.define v (.lit n) ∈ normal →
        (∀ e ∈ Code.exprs normal, v ∉ e.scalars) ∧
          ((∃ result operands guard, Instr.join result operands guard ∈ normal ∧ v ∈ operands) ∨
            ∃ e ∈ Code.exprs normal, v ∈ e.arrays)) ∧
      ∀ e ∈ Code.exprs normal, e.Folded := by
  obtain ⟨code, s, hnum, hssa⟩ := p.exists_toSsa
  have hpropagated : Code.Propagated (Code.eliminateDead (Code.propagate code)) :=
    (hnum.step valid_empty).within.acyclic.propagated.subset fun _ hmem =>
      (Code.eliminateDead_sublist _).subset hmem
  have hswept := Code.swept_eliminateDead (Code.propagate code)
  have hfixed := hpropagated.run_eq_self hswept
  have hround : (Pass.all.foldl Optimized.step { code := code }).code =
      Code.eliminateDead (Code.propagate code) := rfl
  obtain ⟨hcode, hrounds⟩ := Optimized.run_of_round hround hfixed
    (by decide : 0 < roundLimit)
  have hoptimize : Code.optimize code = Code.eliminateDead (Code.propagate code) := hcode
  refine ⟨_, _, hssa, rfl, hfixed .constants (by decide), hfixed .deadCode (by decide), hrounds,
    hoptimize, ?_, ?_, hpropagated.folded⟩
  · rw [hoptimize]
    exact congrArg Optimized.code (Optimized.run_eq_self hfixed roundLimit)
  · intro v n hmem
    have hscalars : ∀ e ∈ Code.exprs (Code.eliminateDead (Code.propagate code)),
        v ∉ e.scalars := fun e he hv => hpropagated.replaced e he v hv n hmem
    refine ⟨hscalars, ?_⟩
    rcases Code.uses_cases (hswept v (Code.mem_targets.mpr ⟨_, hmem⟩)) with hjoin | ⟨e, he, hv⟩
    · exact .inl hjoin
    · exact .inr ⟨e, he, (Expr.scalars_or_arrays hv).resolve_left (hscalars e he)⟩

end WhileSmt
