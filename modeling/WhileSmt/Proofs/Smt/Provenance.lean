import WhileSmt.Proofs.Smt.Semantics
import WhileSmt.Proofs.Smt.Sorting
import WhileSmt.Proofs.Ssa.Derivation
import WhileSmt.Proofs.Ssa.VersionText

/-!
Where the names in the code of a program come from: the versions that it defines and joins are
those of assigned names, and its expressions are those of the program over versions, so they read
the same, arrays as arrays and scalars as scalars.

Main statements: the names of the code of a block (`Block.Numbers.over`), and that a program which
keeps its arrays apart from its other names leads to code in which arrays are inputs
(`Program.array_input`).
-/

namespace WhileSmt

open Scope

/-! ## The expressions of a program -/

/-- The names that an expression reads as scalars, with repetitions. -/
def Expr.scalars {ν : Type} : Expr ν → List ν
  | lit _ => []
  | var x => [x]
  | index _ i => i.scalars
  | unary _ e => e.scalars
  | binary _ l r => l.scalars ++ r.scalars

mutual

/-- The expressions of a statement, those of nested blocks included. -/
def Stmt.exprs : Stmt → List (Expr String)
  | .assign _ a => [a.value]
  | .check _ cond => [cond]
  | .ifElse _ cond t e => cond :: (Block.exprs t ++ Block.exprs e)
  | .whileDo _ cond body => cond :: Block.exprs body
  | .forDo _ init cond update body => init.value :: cond :: update.value :: Block.exprs body

/-- The expressions of a block, at all depths. -/
def Block.exprs : List Stmt → List (Expr String)
  | [] => []
  | s :: rest => s.exprs ++ Block.exprs rest

end

/-- No name of an array is assigned or read as a scalar. -/
def Program.arraysApart (p : Program) : Bool :=
  ((Block.exprs p.statements).flatMap Expr.arrays).all fun x =>
    x ∉ Block.assigned p.statements ∧ x ∉ (Block.exprs p.statements).flatMap Expr.scalars

namespace Expr

variable {ν μ : Type}

theorem arrays_map (f : ν → μ) (e : Expr ν) : (e.map f).arrays = e.arrays.map f := by
  induction e with
  | lit n => rfl
  | var x => rfl
  | index a i ih => simp [map, arrays, ih]
  | unary op e ih => simpa [map, arrays] using ih
  | binary op l r ihl ihr => simp [map, arrays, ihl, ihr]

theorem scalars_map (f : ν → μ) (e : Expr ν) : (e.map f).scalars = e.scalars.map f := by
  induction e with
  | lit n => rfl
  | var x => rfl
  | index a i ih => simpa [map, scalars] using ih
  | unary op e ih => simpa [map, scalars] using ih
  | binary op l r ihl ihr => simp [map, scalars, ihl, ihr]

theorem names_of_arrays {e : Expr ν} {x : ν} (h : x ∈ e.arrays) : x ∈ e.names := by
  induction e with
  | lit n => cases h
  | var y => cases h
  | index a i ih =>
    rcases List.mem_cons.mp h with rfl | h
    · simp [names]
    · simp [names, ih h]
  | unary op e ih => exact ih h
  | binary op l r ihl ihr =>
    rcases List.mem_append.mp h with h | h
    · simp [names, ihl h]
    · simp [names, ihr h]

theorem names_of_scalars {e : Expr ν} {x : ν} (h : x ∈ e.scalars) : x ∈ e.names := by
  induction e with
  | lit n => cases h
  | var y => exact h
  | index a i ih => simp [names, ih h]
  | unary op e ih => exact ih h
  | binary op l r ihl ihr =>
    rcases List.mem_append.mp h with h | h
    · simp [names, ihl h]
    · simp [names, ihr h]

/-- The constants of an expression are its scalars and its arrays. -/
theorem mem_symbols {e : Expr Version} {p : String × Srt} (h : p ∈ e.symbols) :
    (∃ v ∈ e.scalars, p = (v.text, .int)) ∨ ∃ v ∈ e.arrays, p = (v.text, .array) := by
  induction e with
  | lit n => cases h
  | var x => exact .inl ⟨x, by simp [scalars], List.mem_singleton.mp h⟩
  | index a i ih =>
    rcases List.mem_cons.mp h with rfl | h
    · exact .inr ⟨a, by simp [arrays], rfl⟩
    · rcases ih h with ⟨v, hv, hp⟩ | ⟨v, hv, hp⟩
      · exact .inl ⟨v, hv, hp⟩
      · exact .inr ⟨v, by simp [arrays, hv], hp⟩
  | unary op e ih => exact ih h
  | binary op l r ihl ihr =>
    rcases List.mem_append.mp h with h | h
    · rcases ihl h with ⟨v, hv, hp⟩ | ⟨v, hv, hp⟩
      · exact .inl ⟨v, by simp [scalars, hv], hp⟩
      · exact .inr ⟨v, by simp [arrays, hv], hp⟩
    · rcases ihr h with ⟨v, hv, hp⟩ | ⟨v, hv, hp⟩
      · exact .inl ⟨v, by simp [scalars, hv], hp⟩
      · exact .inr ⟨v, by simp [arrays, hv], hp⟩

end Expr

/-! ## The names of an instruction -/

/-- An expression of a list with the versions that its names have in some scope, perhaps negated. -/
inductive Expr.From (es : List (Expr String)) : Expr Version → Prop where
  | resolve (s : Scope) {e : Expr String} : e ∈ es → From es (s.resolve e)
  | negated (s : Scope) {e : Expr String} : e ∈ es → From es (.unary .not (s.resolve e))

/-- An instruction that defines and joins versions of the names `w`, and whose expression comes from
`es`. -/
structure Instr.Over (w : List String) (es : List (Expr String)) (instr : Instr) : Prop where
  heads : ∀ v ∈ instr.heads, v.base ∈ w
  encoded : ∀ e, instr.encoded? = some e → e.From es

theorem Expr.From.mono {es es' : List (Expr String)} {e : Expr Version} (h : e.From es)
    (hes : ∀ e ∈ es, e ∈ es') : e.From es' := by
  cases h with
  | resolve s he => exact .resolve s (hes _ he)
  | negated s he => exact .negated s (hes _ he)

/-- An expression over versions that reads what some expression of a list reads. -/
def Expr.Over (es : List (Expr String)) (e : Expr Version) : Prop :=
  (∀ v ∈ e.arrays, v.base ∈ es.flatMap Expr.arrays) ∧
    ∀ v ∈ e.scalars, v.base ∈ es.flatMap Expr.scalars

theorem Expr.over_resolve (s : Scope) {e : Expr String} {es : List (Expr String)} (he : e ∈ es) :
    (s.resolve e).Over es := by
  rw [resolve, Expr.Over, arrays_map, scalars_map]
  constructor
  · intro v hv
    obtain ⟨x, hx, rfl⟩ := List.mem_map.mp hv
    exact List.mem_flatMap.mpr ⟨e, he, hx⟩
  · intro v hv
    obtain ⟨x, hx, rfl⟩ := List.mem_map.mp hv
    exact List.mem_flatMap.mpr ⟨e, he, hx⟩

theorem Expr.From.over {es : List (Expr String)} {e : Expr Version} (h : e.From es) :
    e.Over es := by
  cases h with
  | resolve s he => exact over_resolve s he
  | negated s he => exact over_resolve s he

theorem Instr.Over.mono {w w' : List String} {es es' : List (Expr String)} {instr : Instr}
    (h : instr.Over w es) (hw : ∀ x ∈ w, x ∈ w') (hes : ∀ e ∈ es, e ∈ es') : instr.Over w' es' :=
  ⟨fun v hv => hw _ (h.heads v hv), fun e he => (h.encoded e he).mono hes⟩

/-- Joins where two paths meet are over the names in which the paths differ, and their guard. -/
theorem Scope.Meets.over {guard : Expr Version} {one : NameMap Nat} {s s' : Scope} {code : Code}
    {w : List String} {es : List (Expr String)} (h : Meets guard one s code s')
    (htargets : ∀ v ∈ Code.defined code, v.base ∈ w) (hguard : guard.From es) :
    ∀ instr ∈ code, instr.Over w es := by
  intro instr hmem
  obtain ⟨x, a, b, ha, hb, hab, rfl⟩ := h.mem_code.mp hmem
  have hx : x ∈ w := htargets _ (Code.mem_defined.mpr ⟨_, hmem, rfl⟩)
  constructor
  · intro v hv
    simp only [Instr.heads, List.mem_cons, List.not_mem_nil, or_false] at hv
    rcases hv with rfl | rfl | rfl <;> exact hx
  · intro e he
    cases he
    exact hguard

/-- The joins at the entry of a loop are over the names that the loop carries. -/
theorem Scope.over_entryCode {s after : Scope} {names w : List String} {es : List (Expr String)}
    (hnames : ∀ x ∈ names, x ∈ w) : ∀ instr ∈ s.entryCode after names, instr.Over w es := by
  intro instr hmem
  obtain ⟨x, hx, rfl⟩ := List.mem_map.mp hmem
  constructor
  · intro v hv
    simp only [Instr.heads, List.mem_cons, List.not_mem_nil, or_false] at hv
    rcases hv with rfl | rfl | rfl <;> exact hnames x hx
  · intro e he
    cases he

/-! ## The names of the code of a program -/

namespace Block

theorem exprs_append (b₁ b₂ : Block) : exprs (b₁ ++ b₂) = exprs b₁ ++ exprs b₂ := by
  induction b₁ with
  | nil => rfl
  | cons stmt rest ih => simp [exprs, ih]

theorem mem_exprs_forDo {e : Expr String} {span : Span} {init update : Assignment}
    {cond : Expr String} {body rest : Block} :
    e ∈ exprs (.forDo span init cond update body :: rest) ↔
      e ∈ exprs (counting span init cond update body ++ rest) := by
  simp only [counting, exprs, Stmt.exprs, exprs_append, List.mem_append, List.mem_cons,
    List.not_mem_nil, or_false]
  grind

theorem over_cons {stmt : Stmt} {rest : Block} {code more : Code}
    (h : ∀ instr ∈ code, instr.Over stmt.assigned stmt.exprs)
    (hrest : ∀ instr ∈ more, instr.Over (assigned rest) (exprs rest)) :
    ∀ instr ∈ code ++ more, instr.Over (assigned (stmt :: rest)) (exprs (stmt :: rest)) := by
  intro instr hmem
  rcases List.mem_append.mp hmem with hmem | hmem
  · exact (h instr hmem).mono (fun x hx => List.mem_append_left _ hx)
      fun e he => List.mem_append_left _ he
  · exact (hrest instr hmem).mono (fun x hx => List.mem_append_right _ hx)
      fun e he => List.mem_append_right _ he

/-- The code of a block is over the names that the block assigns and its expressions. -/
theorem Numbers.over {b : Block} {s s' : Scope} {code : Code} (h : Numbers b s code s')
    (hv : s.Valid) : ∀ instr ∈ code, instr.Over (assigned b) (exprs b) := by
  induction h with
  | nil s =>
    intro instr hmem
    cases hmem
  | @assign span a rest s s₁ s' more hclaim _ ih =>
    refine over_cons (List.forall_mem_singleton.mpr ?_)
      (ih (((claims_of_claim hclaim).valid hv).advance _))
    constructor
    · intro v hv
      rw [List.mem_singleton.mp hv]
      exact List.mem_singleton_self a.target
    · intro e he
      cases he
      exact .resolve s₁ (List.mem_singleton_self a.value)
  | @check span cond rest s s₁ s' more hclaim _ ih =>
    refine over_cons (List.forall_mem_singleton.mpr ?_) (ih ((claims_of_claim hclaim).valid hv))
    constructor
    · intro v hv
      cases hv
    · intro e he
      cases he
      exact .resolve s₁ (List.mem_singleton_self cond)
  | @ifElse span cond t e rest s s₁ first second joined s' thenCode elseCode joins more hclaim ht he
      hjoin hrest iht ihe ihrest =>
    have hbranch := Branch.of_claim hv hclaim ht.step he.step hjoin
    refine over_cons ?_ (ihrest hbranch.step.valid)
    simp only [Stmt.assigned, Stmt.exprs, List.forall_mem_append]
    refine ⟨⟨?_, ?_⟩, ?_⟩
    · intro instr hmem
      refine (iht hbranch.valid instr hmem).mono ?_ ?_
      · exact fun x hx => List.mem_append_left _ hx
      · exact fun e' he' => by simp [he']
    · intro instr hmem
      refine (ihe hbranch.elseValid instr hmem).mono ?_ ?_
      · exact fun x hx => List.mem_append_right _ hx
      · exact fun e' he' => by simp [he']
    · exact hbranch.meets.over (fun v hmem => hbranch.step.targets v (by simp [hmem]))
        (.resolve s₁ List.mem_cons_self)
  | @whileDo span cond body rest s s₁ after final s' code exits more hclaim hbody hexit hrest ihbody
      ihrest =>
    have hloop := Loop.of_claim hv hclaim hbody.step hexit
    have hguard : (Expr.unary .not (s₁.resolve cond)).From (cond :: exprs body) :=
      .negated s₁ List.mem_cons_self
    refine over_cons ?_ (ihrest hloop.step.valid)
    simp only [Stmt.assigned, Stmt.exprs, List.forall_mem_append]
    refine ⟨⟨?_, over_entryCode fun x hx => (mem_carried.mp hx).1⟩, ?_⟩
    · intro instr hmem
      refine (ihbody (hloop.valid.advanceAll _) instr hmem).mono (fun x hx => hx) ?_
      exact fun e he => List.mem_cons_of_mem cond he
    · exact hloop.meets.over (fun v hmem => hloop.step.targets v (by simp [hmem])) hguard
  | forDo _ ih =>
    intro instr hmem
    exact (ih hv instr hmem).mono (fun x hx => mem_assigned_forDo.mpr hx)
      fun e he => mem_exprs_forDo.mpr he

end Block

/-- A version that is read is an input if its name is never written. -/
theorem Scope.Step.input_of_unwritten {w r : List String} {code : Code} {s : Scope}
    (h : Step w r {} code s) {v : Version} (hv : v ∈ Code.uses code) (hw : v.base ∉ w) :
    v = { base := v.base, number := 0 } := by
  obtain ⟨instr, hmem, huse⟩ := Code.mem_uses.mp hv
  obtain ⟨before, after, rfl⟩ := List.append_of_mem hmem
  have hnot : v ∉ Code.defined (before ++ instr :: after) := fun hdef => hw (h.targets v hdef)
  rcases h.ordered.use huse with (hinput | hcarried) | hbefore
  · exact hinput
  · obtain ⟨operands, hjoin⟩ := Code.mem_unguarded.mp hcarried
    exact absurd (Code.mem_defined.mpr ⟨_, hjoin, rfl⟩) hnot
  · exact absurd (by rw [Code.defined_append]; exact List.mem_append_left _ hbefore) hnot

theorem Instr.uses_of_encoded {instr : Instr} {e : Expr Version} (h : instr.encoded? = some e)
    {v : Version} (hv : v ∈ e.names) : v ∈ instr.uses := by
  unfold encoded? at h
  unfold uses
  split at h
  · cases h
    exact hv
  · cases h
    simp [hv]
  · cases h
  · cases h
    exact hv

theorem Instr.encoded_of_arrays {instr : Instr} {a : Version} (h : a ∈ instr.arrays) :
    ∃ e, instr.encoded? = some e ∧ a ∈ e.arrays := by
  unfold arrays at h
  cases he : instr.encoded? with
  | none =>
    rw [he] at h
    cases h
  | some e =>
    rw [he] at h
    exact ⟨e, rfl, h⟩

theorem Code.uses_of_arrays {code : Code} {a : Version} (h : a ∈ Code.arrays code) :
    a ∈ Code.uses code := by
  obtain ⟨instr, hmem, ha⟩ := List.mem_flatMap.mp h
  obtain ⟨e, he, hae⟩ := Instr.encoded_of_arrays ha
  exact mem_uses.mpr ⟨instr, hmem, Instr.uses_of_encoded he (Expr.names_of_arrays hae)⟩

/-- The versions that an instruction defines or joins are defined or read by it. -/
theorem Instr.defined_or_uses_of_heads {instr : Instr} {v : Version} (h : v ∈ instr.heads) :
    instr.defined? = some v ∨ v ∈ instr.uses := by
  cases instr with
  | define target value => exact .inl (congrArg some (List.mem_singleton.mp h).symm)
  | check cond => cases h
  | join result operands guard =>
    rcases List.mem_cons.mp h with rfl | h
    · exact .inl rfl
    · exact .inr (List.mem_append_left _ h)

/-- Every constant of a list of instructions is a version that the list defines or reads. -/
theorem Code.exists_version_of_symbol {code : Code} {p : String × Srt} (h : p ∈ symbols code) :
    ∃ v : Version, (v ∈ defined code ∨ v ∈ uses code) ∧ v.text = p.1 := by
  obtain ⟨instr, hmem, hin⟩ := List.mem_flatMap.mp h
  have huse : ∀ v ∈ instr.uses, v ∈ uses code := fun v hv => mem_uses.mpr ⟨instr, hmem, hv⟩
  rcases List.mem_append.mp hin with hin | hin
  · obtain ⟨v, hv, rfl⟩ := List.mem_map.mp hin
    refine ⟨v, ?_, rfl⟩
    rcases Instr.defined_or_uses_of_heads hv with hdef | hv
    · exact .inl (mem_defined.mpr ⟨instr, hmem, hdef⟩)
    · exact .inr (huse v hv)
  · cases he : instr.encoded? with
    | none =>
      rw [he] at hin
      cases hin
    | some e =>
      rw [he] at hin
      rcases Expr.mem_symbols hin with ⟨v, hv, rfl⟩ | ⟨v, hv, rfl⟩
      · exact ⟨v, .inr (huse v (Instr.uses_of_encoded he (Expr.names_of_scalars hv))), rfl⟩
      · exact ⟨v, .inr (huse v (Instr.uses_of_encoded he (Expr.names_of_arrays hv))), rfl⟩

namespace Program

variable {p : Program} {code : Code} {s : Scope}

theorem not_mem_of_arraysApart (h : p.arraysApart = true) {x : String}
    (hx : x ∈ (Block.exprs p.statements).flatMap Expr.arrays) :
    x ∉ Block.assigned p.statements ∧
      x ∉ (Block.exprs p.statements).flatMap Expr.scalars := by
  unfold arraysApart at h
  exact of_decide_eq_true (List.all_eq_true.mp h x hx)

/-- If arrays are kept apart, the code reads only from arrays that are inputs. -/
theorem array_input (hnum : Block.Numbers p.statements {} code s) (hapart : p.arraysApart = true)
    {a : Version} (ha : a ∈ Code.arrays code) : a = { base := a.base, number := 0 } := by
  obtain ⟨instr, hmem, hin⟩ := List.mem_flatMap.mp ha
  obtain ⟨e, he, hae⟩ := Instr.encoded_of_arrays hin
  have hbase := ((hnum.over valid_empty instr hmem).encoded e he).over.1 a hae
  exact (hnum.step valid_empty).input_of_unwritten (Code.uses_of_arrays ha)
    (not_mem_of_arraysApart hapart hbase).1

end Program

end WhileSmt
