import Mathlib.Logic.Function.Basic
import WhileSmt.Proofs.Meaning

/-!
Solutions of the equations of a list of instructions. In an acyclic list they are found by going
through the list once and putting every value where it belongs. Nothing is asked of the
interpretation for this: negation need not flip truth values.

Main statement: the values that solve an acyclic list are those that this computation leaves
(`Code.Acyclic.solves_iff`), so there is exactly one solution for every choice of the other values.
-/

namespace WhileSmt

universe u

/-- Operations on the values in `δ`, with a truth value for guards. An array read may depend on the
version of the array, on its value and on the index. -/
structure Operations (δ : Type u) where
  lit : Int64 → δ
  unary : UnOp → δ → δ
  binary : BinOp → δ → δ → δ
  index : Version → δ → δ → δ
  truth : δ → Bool

namespace Operations

variable {δ : Type u}

/-- The value of an expression under the operations. -/
def value (O : Operations δ) (r : Version → δ) : Expr Version → δ
  | .lit n => O.lit n
  | .var x => r x
  | .index a i => O.index a (r a) (O.value r i)
  | .unary op e => O.unary op (O.value r e)
  | .binary op l r' => O.binary op (O.value r l) (O.value r r')

/-- The version that the equation of an instruction is for, with the value of the other side: the
value of a definition, or the operand of a guarded join that the guard chooses. -/
def assigns (O : Operations δ) (r : Version → δ) : Instr → Option (Version × δ)
  | .define target value => some (target, O.value r value)
  | .join result [first, second] (some guard) =>
    some (result, if O.truth (O.value r guard) then r first else r second)
  | _ => none

/-- The equations of all definitions and guarded joins hold. -/
def Solves (O : Operations δ) (r : Version → δ) (code : Code) : Prop :=
  ∀ instr ∈ code, ∀ v d, O.assigns r instr = some (v, d) → r v = d

/-- The values after the equation of an instruction has been made true. -/
def assign (O : Operations δ) (r : Version → δ) (instr : Instr) : Version → δ :=
  match O.assigns r instr with
  | some (v, d) => Function.update r v d
  | none => r

/-- The values after going through a list once. -/
def solution (O : Operations δ) (r : Version → δ) (code : Code) : Version → δ :=
  code.foldl O.assign r

variable {O : Operations δ} {r r' : Version → δ} {instr : Instr}

theorem value_congr {e : Expr Version} (h : ∀ x ∈ e.names, r x = r' x) :
    O.value r e = O.value r' e := by
  induction e with
  | lit n => rfl
  | var x => exact h x (by simp [Expr.names])
  | index a i ih =>
    have ha := h a (by simp [Expr.names])
    have hi := ih fun x hx => h x (by simp [Expr.names, hx])
    simp only [value, ha, hi]
  | unary op e ih => simp only [value, ih h]
  | binary op e₁ e₂ ih₁ ih₂ =>
    have h₁ := ih₁ fun x hx => h x (by simp [Expr.names, hx])
    have h₂ := ih₂ fun x hx => h x (by simp [Expr.names, hx])
    simp only [value, h₁, h₂]

/-- The other side depends only on the versions that the instruction reads. -/
theorem assigns_congr (h : ∀ v ∈ instr.uses, r v = r' v) :
    O.assigns r instr = O.assigns r' instr := by
  unfold assigns
  split
  · next target value => rw [value_congr h]
  · next result first second guard =>
    have hguard : O.value r guard = O.value r' guard :=
      value_congr fun v hv => h v (by simp [Instr.uses, hv])
    rw [hguard, h first (by simp [Instr.uses]), h second (by simp [Instr.uses])]
  · rfl

theorem map_fst_assigns (O : Operations δ) (r : Version → δ) (instr : Instr) :
    (O.assigns r instr).map Prod.fst = instr.bound? := by
  cases instr with
  | define target value => rfl
  | check cond => rfl
  | join result operands guard =>
    cases guard with
    | none => simp [assigns, Instr.bound?]
    | some guard =>
      rcases operands with _ | ⟨first, _ | ⟨second, _ | ⟨third, more⟩⟩⟩ <;> rfl

theorem assign_of_none (h : O.assigns r instr = none) : O.assign r instr = r := by
  rw [assign, h]

theorem assign_of_some {v : Version} {d : δ} (h : O.assigns r instr = some (v, d)) :
    O.assign r instr = Function.update r v d := by
  rw [assign, h]

theorem solves_cons {code : Code} : O.Solves r (instr :: code) ↔
    (∀ v d, O.assigns r instr = some (v, d) → r v = d) ∧ O.Solves r code :=
  List.forall_mem_cons

end Operations

namespace Code

variable {δ : Type u} {O : Operations δ} {r free : Version → δ} {instr : Instr} {rest code : Code}

/-- The first equation of an acyclic list can be made true before the others are looked at. -/
theorem Acyclic.solves_cons_iff (h : Acyclic (instr :: rest)) :
    (O.Solves r (instr :: rest) ∧ ∀ v, v ∉ bound (instr :: rest) → r v = free v) ↔
      O.Solves r rest ∧ ∀ v, v ∉ bound rest → r v = O.assign free instr v := by
  obtain ⟨hread, honce, -⟩ := h
  have hbound := O.map_fst_assigns free instr
  rw [Operations.solves_cons]
  cases hfree : O.assigns free instr with
  | none =>
    rw [hfree] at hbound
    have hnone : O.assigns r instr = none := by
      rw [← Option.map_eq_none_iff, O.map_fst_assigns, ← hbound]
      rfl
    have hsame : bound (instr :: rest) = bound rest := List.filterMap_cons_none hbound.symm
    simp only [Operations.assign_of_none hfree, hnone, hsame, reduceCtorEq, false_imp_iff,
      implies_true, true_and]
  | some assigned =>
    obtain ⟨w, d⟩ := assigned
    rw [hfree] at hbound
    rw [Operations.assign_of_some hfree]
    have hw : w ∉ bound rest := honce w hbound.symm
    have hmem : ∀ {v}, v ∉ bound (instr :: rest) ↔ v ≠ w ∧ v ∉ bound rest := by
      intro v
      rw [mem_bound_cons, ← hbound, not_or, Option.map_some, Option.some.injEq, ne_comm]
    -- what the first instruction reads is free, so its other side is known from the start
    have hother : (∀ v, v ∉ bound (instr :: rest) → r v = free v) →
        O.assigns r instr = some (w, d) := fun hkeep =>
      (Operations.assigns_congr fun v hv => hkeep v (hread v hv)).trans hfree
    constructor
    · rintro ⟨⟨hfirst, hrest⟩, hkeep⟩
      refine ⟨hrest, fun v hv => ?_⟩
      by_cases hvw : v = w
      · rw [hvw, Function.update_self]
        exact hfirst w d (hother hkeep)
      · rw [Function.update_of_ne hvw]
        exact hkeep v (hmem.mpr ⟨hvw, hv⟩)
    · rintro ⟨hrest, hkeep⟩
      have hkeep' : ∀ v, v ∉ bound (instr :: rest) → r v = free v := by
        intro v hv
        obtain ⟨hvw, hv⟩ := hmem.mp hv
        rw [hkeep v hv, Function.update_of_ne hvw]
      refine ⟨⟨?_, hrest⟩, hkeep'⟩
      intro v d' hd'
      cases (hother hkeep').symm.trans hd'
      rw [hkeep w hw, Function.update_self]

/-- The equations of an acyclic list are solved by one choice of values, if those of the versions
without an equation are given: by the one that is computed in the order of the list. -/
theorem Acyclic.solves_iff (h : Acyclic code) :
    (O.Solves r code ∧ ∀ v, v ∉ bound code → r v = free v) ↔ r = O.solution free code := by
  induction code generalizing free with
  | nil =>
    constructor
    · rintro ⟨-, hkeep⟩
      exact funext fun v => hkeep v List.not_mem_nil
    · rintro rfl
      exact ⟨fun _ hmem => absurd hmem List.not_mem_nil, fun _ _ => rfl⟩
  | cons instr rest ih => exact h.solves_cons_iff.trans (ih h.2.2)

end Code

/-! ## Interpretations in which negation flips truth values -/

section

variable {δ : Type u} {M : Meaning Version δ} {r : Version → δ} {code : Code}

/-- The operations of a meaning. -/
def Meaning.operations (M : Meaning Version δ) : Operations δ where
  lit := M.lit
  unary := M.unary
  binary := M.binary
  index := M.index
  truth := M.truth

@[simp] theorem Meaning.truth_operations (d : δ) : M.operations.truth d = M.truth d := rfl

theorem Expr.value_operations (e : Expr Version) : M.operations.value r e = e.eval M r := by
  induction e with
  | lit n => rfl
  | var x => rfl
  | index a i ih => simp only [Operations.value, eval, ih]; rfl
  | unary op e ih => simp only [Operations.value, eval, ih]; rfl
  | binary op e₁ e₂ ih₁ ih₂ => simp only [Operations.value, eval, ih₁, ih₂]; rfl

theorem Instr.solved_iff_assigns {instr : Instr} :
    instr.Solved M r ↔ ∀ v d, M.operations.assigns r instr = some (v, d) → r v = d := by
  unfold Solved Operations.assigns
  split
  · simp [Expr.value_operations]
  · simp [Expr.value_operations]
  · simp

namespace Code

theorem solves_operations : M.operations.Solves r code ↔ Solved M r code :=
  forall₂_congr fun _ _ => Instr.solved_iff_assigns.symm

/-- The equations can be solved in the order of the list, from any values of the versions that
have none. -/
theorem Acyclic.exists_solved (M : Meaning Version δ) {code : Code} (h : Acyclic code)
    (r : Version → δ) : ∃ r', Solved M r' code ∧ ∀ v, v ∉ bound code → r' v = r v := by
  obtain ⟨hsolves, hkeep⟩ := h.solves_iff.mpr (rfl : _ = M.operations.solution r code)
  exact ⟨_, solves_operations.mp hsolves, hkeep⟩

/-- The equations of an acyclic list have one solution for every choice of the versions that they
do not determine. -/
theorem Acyclic.unique (h : Acyclic code) {r₁ r₂ : Version → δ} (h₁ : Solved M r₁ code)
    (h₂ : Solved M r₂ code) (hfree : ∀ v, v ∉ bound code → r₁ v = r₂ v) : r₁ = r₂ := by
  have hfirst := h.solves_iff.mp ⟨solves_operations.mpr h₁, hfree⟩
  have hsecond := h.solves_iff.mp ⟨solves_operations.mpr h₂, fun _ _ => rfl⟩
  exact hfirst.trans hsecond.symm

end Code

end

end WhileSmt
