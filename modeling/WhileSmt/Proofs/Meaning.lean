import Mathlib.Logic.Function.Basic
import WhileSmt.Ssa.Basic

/-!
What expressions and instructions mean. An interpretation gives a value to literals, operators and
array reads. The definitions and the guarded joins of a list of instructions are then equations
between the values of versions, and its assertions are conditions on them.

Main statements: what an expression, an instruction and a list of instructions depend on
(`Expr.eval_congr`, `Code.Solved.congr`, `Code.passed_congr`), and when lists of instructions that
read no version before its equation can be put together (`Code.acyclic_append`).
-/

namespace WhileSmt

universe u

/-- An interpretation of expressions over the names `ν` by values in `δ`, with a truth value that
negation flips. An array read may depend on the name of the array, on its value and on the index. -/
structure Meaning (ν : Type) (δ : Type u) where
  lit : Int64 → δ
  unary : UnOp → δ → δ
  binary : BinOp → δ → δ → δ
  index : ν → δ → δ → δ
  truth : δ → Bool
  truth_not : ∀ d, truth (unary .not d) = !truth d

/-- The interpretation of expressions over versions in which all versions of a name are read as
the name itself. -/
def Meaning.versions {δ : Type u} (M : Meaning String δ) : Meaning Version δ where
  lit := M.lit
  unary := M.unary
  binary := M.binary
  index := fun v => M.index v.base
  truth := M.truth
  truth_not := M.truth_not

@[simp] theorem Meaning.truth_versions {δ : Type u} (M : Meaning String δ) (d : δ) :
    M.versions.truth d = M.truth d := rfl

/-! ## Expressions -/

namespace Expr

variable {ν : Type} {δ : Type u}

/-- The value of an expression, given the values of the names. -/
def eval (M : Meaning ν δ) (r : ν → δ) : Expr ν → δ
  | lit n => M.lit n
  | var x => r x
  | index a i => M.index a (r a) (i.eval M r)
  | unary op e => M.unary op (e.eval M r)
  | binary op l r' => M.binary op (l.eval M r) (r'.eval M r)

/-- An expression depends only on the names that it reads. -/
theorem eval_congr {M : Meaning ν δ} {r r' : ν → δ} {e : Expr ν}
    (h : ∀ x ∈ e.names, r x = r' x) : e.eval M r = e.eval M r' := by
  induction e with
  | lit n => rfl
  | var x => exact h x (by simp [names])
  | index a i ih =>
    have ha := h a (by simp [names])
    have hi := ih fun x hx => h x (by simp [names, hx])
    simp only [eval, ha, hi]
  | unary op e ih => simp only [eval, ih h]
  | binary op l r₀ ihl ihr =>
    have hl := ihl fun x hx => h x (by simp [names, hx])
    have hr := ihr fun x hx => h x (by simp [names, hx])
    simp only [eval, hl, hr]

/-- Reading versions of names through a choice of one version for every name. -/
theorem eval_map (M : Meaning String δ) (r : Version → δ) (f : String → Version)
    (hf : ∀ x, (f x).base = x) (e : Expr String) :
    (e.map f).eval M.versions r = e.eval M fun x => r (f x) := by
  induction e with
  | lit n => rfl
  | var x => rfl
  | index a i ih => simp only [map, eval, Meaning.versions, hf, ← ih]
  | unary op e ih => simp only [map, eval, ih]; rfl
  | binary op l r₀ ihl ihr => simp only [map, eval, ihl, ihr]; rfl

theorem names_map {μ : Type} (f : ν → μ) (e : Expr ν) : (e.map f).names = e.names.map f := by
  induction e with
  | lit n => rfl
  | var x => rfl
  | index a i ih => simp [map, names, ih]
  | unary op e ih => simpa [map, names] using ih
  | binary op l r ihl ihr => simp [map, names, ihl, ihr]

end Expr

/-! ## Instructions -/

namespace Instr

variable {δ : Type u}

/-- The equation of an instruction holds: a definition gives its value, and a guarded join of two
versions the first or the second of them. A join without a guard says nothing. -/
def Solved (M : Meaning Version δ) (r : Version → δ) : Instr → Prop
  | define target value => r target = value.eval M r
  | join result [first, second] (some guard) =>
    r result = if M.truth (guard.eval M r) then r first else r second
  | _ => True

/-- The condition of an assertion holds. -/
def Passed (M : Meaning Version δ) (r : Version → δ) : Instr → Prop
  | check cond => M.truth (cond.eval M r) = true
  | _ => True

/-- The version that the equation of an instruction determines. -/
def bound? : Instr → Option Version
  | define target _ => some target
  | join result [_, _] (some _) => some result
  | _ => none

theorem defined?_of_bound? {instr : Instr} {v : Version} (h : instr.bound? = some v) :
    instr.defined? = some v := by
  unfold bound? at h
  split at h
  · exact h
  · exact h
  · cases h

/-- An instruction depends only on the versions that it reads and determines. -/
theorem solved_congr {M : Meaning Version δ} {r r' : Version → δ} {instr : Instr}
    (huse : ∀ v ∈ instr.uses, r v = r' v) (hbound : ∀ v, instr.bound? = some v → r v = r' v) :
    instr.Solved M r ↔ instr.Solved M r' := by
  unfold Solved
  split
  · next target value =>
    rw [hbound target rfl, Expr.eval_congr huse]
  · next result first second guard =>
    have hg : guard.eval M r = guard.eval M r' :=
      Expr.eval_congr fun v hv => huse v (by simp [uses, hv])
    rw [hbound result rfl, hg, huse first (by simp [uses]), huse second (by simp [uses])]
  · exact Iff.rfl

theorem passed_congr {M : Meaning Version δ} {r r' : Version → δ} {instr : Instr}
    (huse : ∀ v ∈ instr.uses, r v = r' v) : instr.Passed M r ↔ instr.Passed M r' := by
  cases instr with
  | check cond => simp only [Passed, Expr.eval_congr huse]
  | define target value => exact Iff.rfl
  | join result operands guard => exact Iff.rfl

end Instr

/-! ## Lists of instructions -/

namespace Code

variable {δ : Type u}

/-- All equations of a list hold. -/
def Solved (M : Meaning Version δ) (r : Version → δ) (code : Code) : Prop :=
  ∀ instr ∈ code, instr.Solved M r

/-- All assertions of a list hold. -/
def Passed (M : Meaning Version δ) (r : Version → δ) (code : Code) : Prop :=
  ∀ instr ∈ code, instr.Passed M r

/-- The values solve all equations of a list and pass all of its assertions. -/
def Satisfied (M : Meaning Version δ) (r : Version → δ) (code : Code) : Prop :=
  Solved M r code ∧ Passed M r code

/-- The versions that the equations of a list determine, in order. -/
def bound (code : Code) : List Version :=
  code.filterMap Instr.bound?

@[simp] theorem solved_nil (M : Meaning Version δ) (r : Version → δ) : Solved M r [] := by
  intro instr h
  cases h

@[simp] theorem solved_cons {M : Meaning Version δ} {r : Version → δ} {instr : Instr}
    {code : Code} : Solved M r (instr :: code) ↔ instr.Solved M r ∧ Solved M r code :=
  List.forall_mem_cons

@[simp] theorem solved_append {M : Meaning Version δ} {r : Version → δ} {c₁ c₂ : Code} :
    Solved M r (c₁ ++ c₂) ↔ Solved M r c₁ ∧ Solved M r c₂ :=
  List.forall_mem_append

@[simp] theorem passed_cons {M : Meaning Version δ} {r : Version → δ} {instr : Instr}
    {code : Code} : Passed M r (instr :: code) ↔ instr.Passed M r ∧ Passed M r code :=
  List.forall_mem_cons

@[simp] theorem passed_append {M : Meaning Version δ} {r : Version → δ} {c₁ c₂ : Code} :
    Passed M r (c₁ ++ c₂) ↔ Passed M r c₁ ∧ Passed M r c₂ :=
  List.forall_mem_append

@[simp] theorem defined_append (c₁ c₂ : Code) : defined (c₁ ++ c₂) = defined c₁ ++ defined c₂ :=
  List.filterMap_append

@[simp] theorem bound_append (c₁ c₂ : Code) : bound (c₁ ++ c₂) = bound c₁ ++ bound c₂ :=
  List.filterMap_append

@[simp] theorem uses_append (c₁ c₂ : Code) : uses (c₁ ++ c₂) = uses c₁ ++ uses c₂ :=
  List.flatMap_append

theorem mem_defined {v : Version} {code : Code} :
    v ∈ defined code ↔ ∃ instr ∈ code, instr.defined? = some v :=
  List.mem_filterMap

theorem mem_bound {v : Version} {code : Code} :
    v ∈ bound code ↔ ∃ instr ∈ code, instr.bound? = some v :=
  List.mem_filterMap

theorem mem_uses {v : Version} {code : Code} : v ∈ uses code ↔ ∃ instr ∈ code, v ∈ instr.uses :=
  List.mem_flatMap

theorem mem_bound_cons {v : Version} {instr : Instr} {code : Code} :
    v ∈ bound (instr :: code) ↔ instr.bound? = some v ∨ v ∈ bound code := by
  simp [mem_bound]

theorem mem_uses_cons {v : Version} {instr : Instr} {code : Code} :
    v ∈ uses (instr :: code) ↔ v ∈ instr.uses ∨ v ∈ uses code := by
  simp [mem_uses]

theorem defined_of_bound {v : Version} {code : Code} (h : v ∈ bound code) : v ∈ defined code := by
  obtain ⟨instr, hmem, hv⟩ := mem_bound.mp h
  exact mem_defined.mpr ⟨instr, hmem, Instr.defined?_of_bound? hv⟩

theorem bound_sublist_defined (code : Code) : (bound code).Sublist (defined code) := by
  induction code with
  | nil => exact List.Sublist.slnil
  | cons instr rest ih =>
    unfold bound defined at ih ⊢
    cases hb : instr.bound? with
    | none =>
      rw [List.filterMap_cons_none hb]
      cases hd : instr.defined? with
      | none => rw [List.filterMap_cons_none hd]; exact ih
      | some v => rw [List.filterMap_cons_some hd]; exact ih.cons v
    | some v =>
      rw [List.filterMap_cons_some hb, List.filterMap_cons_some (Instr.defined?_of_bound? hb)]
      exact ih.cons_cons v

/-- A solution stays one when only versions change that the list neither reads nor determines. -/
theorem Solved.congr {M : Meaning Version δ} {r r' : Version → δ} {code : Code}
    (h : Solved M r code) (huse : ∀ v ∈ uses code, r' v = r v)
    (hbound : ∀ v ∈ bound code, r' v = r v) : Solved M r' code := by
  intro instr hmem
  refine (Instr.solved_congr ?_ ?_).mp (h instr hmem)
  · intro v hv
    exact (huse v (mem_uses.mpr ⟨instr, hmem, hv⟩)).symm
  · intro v hv
    exact (hbound v (mem_bound.mpr ⟨instr, hmem, hv⟩)).symm

/-- Whether assertions hold depends only on the versions that the list reads. -/
theorem passed_congr {M : Meaning Version δ} {r r' : Version → δ} {code : Code}
    (h : ∀ v ∈ uses code, r v = r' v) : Passed M r code ↔ Passed M r' code :=
  forall₂_congr fun instr hmem =>
    Instr.passed_congr fun v hv => h v (mem_uses.mpr ⟨instr, hmem, hv⟩)

/-- No instruction reads a version whose equation is its own or comes later, and no version has
two equations. -/
def Acyclic : Code → Prop
  | [] => True
  | instr :: rest =>
    (∀ v ∈ instr.uses, v ∉ bound (instr :: rest)) ∧
      (∀ v, instr.bound? = some v → v ∉ bound rest) ∧ Acyclic rest

theorem acyclic_append {c₁ c₂ : Code} (h₁ : Acyclic c₁) (h₂ : Acyclic c₂)
    (huse : ∀ v ∈ uses c₁, v ∉ bound c₂) (hbound : ∀ v ∈ bound c₁, v ∉ bound c₂) :
    Acyclic (c₁ ++ c₂) := by
  induction c₁ with
  | nil => exact h₂
  | cons instr rest ih =>
    obtain ⟨hread, honce, hrest⟩ := h₁
    have hsplit : ∀ v, v ∈ bound (instr :: rest ++ c₂) → v ∈ bound (instr :: rest) ∨ v ∈ bound c₂ :=
      fun v hv => List.mem_append.mp (bound_append _ _ ▸ hv)
    refine ⟨?_, ?_, ih hrest ?_ ?_⟩
    · intro v hv hmem
      rcases hsplit v hmem with hmem | hmem
      · exact hread v hv hmem
      · exact huse v (mem_uses_cons.mpr (.inl hv)) hmem
    · intro v hv hmem
      have hmem : v ∈ bound rest ++ bound c₂ := bound_append rest c₂ ▸ hmem
      rcases List.mem_append.mp hmem with hmem | hmem
      · exact honce v hv hmem
      · exact hbound v (mem_bound_cons.mpr (.inl hv)) hmem
    · exact fun v hv => huse v (mem_uses_cons.mpr (.inr hv))
    · exact fun v hv => hbound v (mem_bound_cons.mpr (.inr hv))

/-- Instructions that read none of the versions they determine are acyclic in any order. -/
theorem acyclic_of_disjoint {code : Code} (huse : ∀ v ∈ uses code, v ∉ bound code)
    (hnodup : (bound code).Nodup) : Acyclic code := by
  induction code with
  | nil => trivial
  | cons instr rest ih =>
    refine ⟨?_, ?_, ih ?_ ?_⟩
    · exact fun v hv => huse v (mem_uses_cons.mpr (.inl hv))
    · intro v hv
      have h : (v :: bound rest).Nodup := by
        have hcons : bound (instr :: rest) = v :: bound rest := List.filterMap_cons_some hv
        rwa [hcons] at hnodup
      exact (List.nodup_cons.mp h).1
    · intro v hv hb
      exact huse v (mem_uses_cons.mpr (.inr hv)) (mem_bound_cons.mpr (.inr hb))
    · refine hnodup.sublist ?_
      show (rest.filterMap Instr.bound?).Sublist ((instr :: rest).filterMap Instr.bound?)
      exact (List.sublist_cons_self instr rest).filterMap _

end Code

end WhileSmt
