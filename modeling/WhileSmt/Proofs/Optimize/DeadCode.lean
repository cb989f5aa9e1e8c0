import WhileSmt.Optimize.DeadCode
import WhileSmt.Proofs.Optimize.Constants
import WhileSmt.Proofs.Solutions
import WhileSmt.Smt.Script

/-!
Dropping definitions. A definition whose version nobody reads can be solved after everything else,
so dropping it loses nothing but the value of that version.

Main statements: reductions compose (`Code.Reduces.trans`), constant propagation is one
(`Code.reduces_propagate`), and so is the elimination of dead code
(`Code.reduces_eliminateDead`).
-/

namespace WhileSmt

/-- The version that a definition is for. -/
def Instr.target? : Instr → Option Version
  | define target _ => some target
  | _ => none

namespace Code

/-- The versions that are defined other than by a join. -/
def targets (code : Code) : List Version :=
  code.filterMap Instr.target?

/-- The targets of the definitions that `code` has and `code'` does not have. -/
def removedTargets (code code' : Code) : List Version :=
  (targets code).filter (· ∉ targets code')

theorem mem_removedTargets {code code' : Code} {v : Version} :
    v ∈ removedTargets code code' ↔ v ∈ targets code ∧ v ∉ targets code' := by
  simp [removedTargets]

theorem mem_targets {code : Code} {v : Version} :
    v ∈ targets code ↔ ∃ value, Instr.define v value ∈ code := by
  unfold targets
  rw [List.mem_filterMap]
  constructor
  · rintro ⟨instr, hmem, hv⟩
    cases instr with
    | define target value =>
      cases hv
      exact ⟨value, hmem⟩
    | _ => cases hv
  · rintro ⟨value, hmem⟩
    exact ⟨_, hmem, rfl⟩

/-! ## Reductions -/

/-- The values that satisfy `code'` are those that satisfy `code`, up to the values of the versions
in `D`. -/
def SameUpTo {δ : Type} (M : Meaning Version δ) (D : List Version) (code code' : Code) : Prop :=
  ∀ r, Satisfied M r code' ↔ ∃ r', (∀ v, v ∉ D → r' v = r v) ∧ Satisfied M r' code

theorem SameUpTo.refl {δ : Type} (M : Meaning Version δ) (code : Code) :
    SameUpTo M [] code code := by
  intro r
  constructor
  · exact fun h => ⟨r, fun _ _ => rfl, h⟩
  · rintro ⟨r', hsame, h⟩
    have heq : r' = r := by
      ext v
      exact hsame v List.not_mem_nil
    exact heq ▸ h

theorem SameUpTo.trans {δ : Type} {M : Meaning Version δ} {D₁ D₂ D : List Version}
    {c c₁ c₂ : Code} (h₁ : SameUpTo M D₁ c c₁) (h₂ : SameUpTo M D₂ c₁ c₂)
    (hD : ∀ v, v ∈ D ↔ v ∈ D₁ ∨ v ∈ D₂) : SameUpTo M D c c₂ := by
  intro r
  rw [h₂ r]
  constructor
  · rintro ⟨r₁, hsame₂, hsat₁⟩
    obtain ⟨r₀, hsame₁, hsat⟩ := (h₁ r₁).mp hsat₁
    refine ⟨r₀, ?_, hsat⟩
    intro v hv
    rw [hD, not_or] at hv
    rw [hsame₁ v hv.1, hsame₂ v hv.2]
  · -- between the two steps, the versions that the second one drops have their old values
    rintro ⟨r₀, hsame, hsat⟩
    refine ⟨fun v => if v ∈ D₂ then r₀ v else r v, ?_, (h₁ _).mpr ⟨r₀, ?_, hsat⟩⟩
    · intro v hv
      exact if_neg hv
    · intro v hv
      by_cases hv₂ : v ∈ D₂
      · exact (if_pos hv₂).symm
      · rw [if_neg hv₂]
        exact hsame v fun hmem => ((hD v).mp hmem).elim hv hv₂

/-- One step of an optimizer, or several: nothing is added, and only the values of the versions are
lost whose definitions are. -/
structure Reduces (code code' : Code) : Prop where
  targets : ∀ v ∈ targets code', v ∈ targets code
  symbols : ∀ p ∈ symbols code', p ∈ symbols code
  nodup : (defined code).Nodup → (defined code').Nodup
  same : ∀ z arrays, (defined code).Nodup →
    SameUpTo (Meaning.integers z arrays) (removedTargets code code') code code'

namespace Reduces

theorem refl (code : Code) : Reduces code code where
  targets := fun _ h => h
  symbols := fun _ h => h
  nodup := id
  same := by
    intro z arrays _
    have hnone : removedTargets code code = [] := by
      apply List.eq_nil_iff_forall_not_mem.mpr
      intro v hv
      obtain ⟨hmem, hnot⟩ := mem_removedTargets.mp hv
      exact hnot hmem
    rw [hnone]
    exact .refl _ code

theorem trans {c c₁ c₂ : Code} (h₁ : Reduces c c₁) (h₂ : Reduces c₁ c₂) : Reduces c c₂ where
  targets := fun v hv => h₁.targets v (h₂.targets v hv)
  symbols := fun p hp => h₁.symbols p (h₂.symbols p hp)
  nodup := fun h => h₂.nodup (h₁.nodup h)
  same := by
    intro z arrays hnodup
    refine (h₁.same z arrays hnodup).trans (h₂.same z arrays (h₁.nodup hnodup)) ?_
    intro v
    simp only [mem_removedTargets]
    have hup₁ := h₁.targets v
    have hup₂ := h₂.targets v
    grind

end Reduces

end Code

/-! ## Constant propagation -/

/-- Folding brings no new constants into an expression. -/
theorem Expr.symbols_fold {constant? : Version → Option Int64} {e : Expr Version}
    {p : String × Srt} (h : p ∈ (e.fold constant?).symbols) : p ∈ e.symbols := by
  induction e with
  | lit n => exact h
  | var x =>
    unfold fold at h
    split at h
    · cases h
    · exact h
  | index a i ih =>
    rcases List.mem_cons.mp h with rfl | h
    · exact List.mem_cons_self
    · exact List.mem_cons_of_mem _ (ih h)
  | unary op e ih =>
    rcases foldUnary_cases op (e.fold constant?) with ⟨n, heq⟩ | heq
    · rw [fold, heq] at h
      cases h
    · rw [fold, heq] at h
      exact ih h
  | binary op l r ihl ihr =>
    rcases foldBinary_cases op (l.fold constant?) (r.fold constant?) with ⟨n, heq⟩ | heq
    · rw [fold, heq] at h
      cases h
    · rw [fold, heq] at h
      rcases List.mem_append.mp h with h | h
      · exact List.mem_append_left _ (ihl h)
      · exact List.mem_append_right _ (ihr h)

theorem Instr.symbols_fold {table : Constants} {instr : Instr} {p : String × Srt}
    (h : p ∈ (instr.fold table).symbols) : p ∈ instr.symbols := by
  cases instr with
  | define target value =>
    rcases List.mem_append.mp h with h | h
    · exact List.mem_append_left _ h
    · exact List.mem_append_right _ (Expr.symbols_fold h)
  | check cond =>
    rcases List.mem_append.mp h with h | h
    · cases h
    · exact List.mem_append_right _ (Expr.symbols_fold h)
  | join result operands guard =>
    rcases List.mem_append.mp h with h | h
    · exact List.mem_append_left _ h
    · refine List.mem_append_right _ ?_
      cases guard with
      | none => exact h
      | some guard =>
        rcases operands with _ | ⟨first, _ | ⟨second, _ | ⟨third, more⟩⟩⟩
        · exact h
        · exact h
        · exact Expr.symbols_fold h
        · exact h

namespace Code

theorem targets_foldWith (table : Constants) (code : Code) :
    targets (foldWith table code) = targets code := by
  induction code generalizing table with
  | nil => rfl
  | cons instr rest ih =>
    have hinstr : (instr.fold table).target? = instr.target? := by cases instr <;> rfl
    unfold targets at ih ⊢
    rw [foldWith_cons, List.filterMap_cons, List.filterMap_cons, hinstr, ih]

/-- A walk leaves the instructions of the list, folded with the tables it had at their places. -/
theorem mem_foldWith {table : Constants} {code : Code} {instr : Instr}
    (h : instr ∈ foldWith table code) : ∃ i ∈ code, ∃ table', instr = i.fold table' := by
  induction code generalizing table with
  | nil => cases h
  | cons i rest ih =>
    rcases List.mem_cons.mp h with rfl | h
    · exact ⟨i, List.mem_cons_self, table, rfl⟩
    · obtain ⟨j, hj, hfold⟩ := ih h
      exact ⟨j, List.mem_cons_of_mem _ hj, hfold⟩

theorem symbols_foldWith {table : Constants} {code : Code} {p : String × Srt}
    (h : p ∈ symbols (foldWith table code)) : p ∈ symbols code := by
  obtain ⟨instr, hmem, hp⟩ := List.mem_flatMap.mp h
  obtain ⟨i, hi, table', rfl⟩ := mem_foldWith hmem
  exact List.mem_flatMap.mpr ⟨i, hi, Instr.symbols_fold hp⟩

/-- Constant propagation is a reduction that drops nothing. -/
theorem reduces_propagate (code : Code) : Reduces code (propagate code) where
  targets := fun v hv => by rwa [propagate, targets_foldWith] at hv
  symbols := fun p hp => symbols_foldWith hp
  nodup := fun h => by rwa [propagate, defined_foldWith]
  same := by
    intro z arrays _ r
    have hnone : removedTargets code (propagate code) = [] := by
      apply List.eq_nil_iff_forall_not_mem.mpr
      intro v hv
      rw [mem_removedTargets, propagate, targets_foldWith] at hv
      exact hv.2 hv.1
    rw [hnone, satisfied_propagate]
    exact SameUpTo.refl _ code r

/-! ## Dead code -/

/-- Of the instructions of a list with single assignment only one defines a version. -/
theorem eq_of_defined {code : Code} (hnodup : (defined code).Nodup) {i j : Instr} (hi : i ∈ code)
    (hj : j ∈ code) {v : Version} (hiv : i.defined? = some v) (hjv : j.defined? = some v) :
    i = j := by
  induction code with
  | nil => cases hi
  | cons instr rest ih =>
    have hrest : (defined rest).Nodup :=
      hnodup.sublist ((List.sublist_cons_self instr rest).filterMap _)
    have hfirst : instr.defined? = some v → v ∉ defined rest := by
      intro h
      have hcons : defined (instr :: rest) = v :: defined rest := List.filterMap_cons_some h
      rw [hcons] at hnodup
      exact (List.nodup_cons.mp hnodup).1
    rcases List.mem_cons.mp hi with rfl | hi'
    · rcases List.mem_cons.mp hj with rfl | hj'
      · rfl
      · exact absurd (mem_defined.mpr ⟨j, hj', hjv⟩) (hfirst hiv)
    · rcases List.mem_cons.mp hj with rfl | hj'
      · exact absurd (mem_defined.mpr ⟨i, hi', hiv⟩) (hfirst hjv)
      · exact ih hrest hi' hj'

theorem mem_sweep {code : Code} {instr : Instr} :
    instr ∈ sweep code ↔ instr ∈ code ∧ instr.isLive (uses code) = true :=
  List.mem_filter

theorem mem_targets_sweep {code : Code} {v : Version} :
    v ∈ targets (sweep code) ↔ v ∈ targets code ∧ v ∈ uses code := by
  simp only [mem_targets, mem_sweep, Instr.isLive, decide_eq_true_eq, exists_and_right]

theorem mem_removedTargets_sweep {code : Code} {v : Version} :
    v ∈ removedTargets code (sweep code) ↔ v ∈ targets code ∧ v ∉ uses code := by
  rw [mem_removedTargets, mem_targets_sweep]
  grind

theorem mem_unread {code : Code} {instr : Instr} (h : instr ∈ unread code) :
    ∃ target value, instr = .define target value ∧ instr ∈ code ∧ target ∉ uses code := by
  obtain ⟨hmem, hdead⟩ := List.mem_filter.mp h
  cases instr with
  | define target value =>
    refine ⟨target, value, rfl, hmem, ?_⟩
    simpa [Instr.isLive] using hdead
  | join result operands guard => cases hdead
  | check cond => cases hdead

theorem mem_bound_unread {code : Code} {v : Version} (h : v ∈ bound (unread code)) :
    v ∈ removedTargets code (sweep code) := by
  obtain ⟨instr, hmem, hv⟩ := mem_bound.mp h
  obtain ⟨target, value, rfl, hmem, hnot⟩ := mem_unread hmem
  cases hv
  exact mem_removedTargets_sweep.mpr ⟨mem_targets.mpr ⟨value, hmem⟩, hnot⟩

/-- The dropped definitions can be solved, whatever the values of the other versions are. -/
theorem exists_solved_unread {δ : Type} (M : Meaning Version δ) {code : Code}
    (hnodup : (defined code).Nodup) (r : Version → δ) :
    ∃ r', Solved M r' (unread code) ∧
      ∀ v, v ∉ removedTargets code (sweep code) → r' v = r v := by
  have hsub : (unread code).Sublist code := List.filter_sublist
  have hacyclic : Acyclic (unread code) := by
    refine acyclic_of_disjoint ?_ ((hnodup.sublist (hsub.filterMap _)).sublist
      (bound_sublist_defined _))
    intro v hv hb
    obtain ⟨instr, hmem, huse⟩ := mem_uses.mp hv
    have hread : v ∈ uses code := mem_uses.mpr ⟨instr, hsub.subset hmem, huse⟩
    exact (mem_removedTargets_sweep.mp (mem_bound_unread hb)).2 hread
  obtain ⟨r', hsolved, hkeep⟩ := hacyclic.exists_solved M r
  exact ⟨r', hsolved, fun v hv => hkeep v fun hb => hv (mem_bound_unread hb)⟩

/-- Values that differ only in dropped versions satisfy the same remaining instructions. -/
theorem satisfied_iff_of_live {δ : Type} {M : Meaning Version δ} {code : Code}
    (hnodup : (defined code).Nodup) {r r' : Version → δ}
    (hsame : ∀ v, v ∉ removedTargets code (sweep code) → r' v = r v) {instr : Instr}
    (hmem : instr ∈ sweep code) :
    (instr.Solved M r' ↔ instr.Solved M r) ∧ (instr.Passed M r' ↔ instr.Passed M r) := by
  obtain ⟨hcode, hlive⟩ := mem_sweep.mp hmem
  have huse : ∀ v ∈ instr.uses, r' v = r v := by
    intro v hv
    refine hsame v ?_
    intro hgone
    exact (mem_removedTargets_sweep.mp hgone).2 (mem_uses.mpr ⟨instr, hcode, hv⟩)
  have hbound : ∀ v, instr.bound? = some v → r' v = r v := by
    intro v hv
    refine hsame v ?_
    intro hgone
    obtain ⟨htarget, hunread⟩ := mem_removedTargets_sweep.mp hgone
    obtain ⟨value, hdef⟩ := mem_targets.mp htarget
    -- the definition of a dropped version would be this instruction, but this one stays
    have heq := eq_of_defined hnodup hcode hdef (Instr.defined?_of_bound? hv) rfl
    subst heq
    exact hunread (of_decide_eq_true hlive)
  exact ⟨Instr.solved_congr huse hbound, Instr.passed_congr huse⟩

/-- A sweep is a reduction. -/
theorem reduces_sweep (code : Code) : Reduces code (sweep code) where
  targets := fun v hv => (mem_targets_sweep.mp hv).1
  symbols := by
    intro p hp
    obtain ⟨instr, hmem, hin⟩ := List.mem_flatMap.mp hp
    exact List.mem_flatMap.mpr ⟨instr, (mem_sweep.mp hmem).1, hin⟩
  nodup := fun h => h.sublist (List.filter_sublist.filterMap _)
  same := by
    intro z arrays hnodup r
    constructor
    · -- nobody reads the dropped versions, so they take their values after all others
      intro hsat
      obtain ⟨r', hsolved, hkeep⟩ := exists_solved_unread (Meaning.integers z arrays) hnodup r
      refine ⟨r', hkeep, ?_, ?_⟩
      · intro instr hmem
        by_cases hlive : instr ∈ sweep code
        · exact (satisfied_iff_of_live hnodup hkeep hlive).1.mpr (hsat.1 instr hlive)
        · refine hsolved instr (List.mem_filter.mpr ⟨hmem, ?_⟩)
          rw [mem_sweep] at hlive
          simpa [hmem] using hlive
      · intro instr hmem
        by_cases hlive : instr ∈ sweep code
        · exact (satisfied_iff_of_live hnodup hkeep hlive).2.mpr (hsat.2 instr hlive)
        · -- whatever a sweep drops is no assertion
          cases instr with
          | check cond => exact absurd (mem_sweep.mpr ⟨hmem, rfl⟩) hlive
          | _ => trivial
    · rintro ⟨r', hsame, hsat⟩
      constructor
      · intro instr hmem
        exact (satisfied_iff_of_live hnodup hsame hmem).1.mp
          (hsat.1 instr (mem_sweep.mp hmem).1)
      · intro instr hmem
        exact (satisfied_iff_of_live hnodup hsame hmem).2.mp
          (hsat.2 instr (mem_sweep.mp hmem).1)

/-- Sweeping until nothing is dropped is a reduction. -/
theorem reduces_eliminateDead (code : Code) : Reduces code (eliminateDead code) :=
  eliminateDead_induct (fun code _ ih => (reduces_sweep code).trans ih) (fun code _ => .refl code)
    code

end Code

end WhileSmt
