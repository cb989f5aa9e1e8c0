import WhileSmt.Proofs.Optimize.Settling

/-!
What the elimination of dead code computes. A part of a list is alive if it has all joins and
assertions of the list, and every definition in it is read in it. Definitions that read each other
keep each other alive, so there can be many such parts; sweeping until nothing is dropped finds the
one that contains all others.

Main statements: every part without an unread definition outlives the sweeps
(`Code.Swept.sublist_eliminateDead`), and what is left is the greatest part that is alive
(`Code.eliminateDead_greatest`).
-/

namespace WhileSmt

/-- An instruction that stays when some versions are read stays when more are. -/
theorem Instr.isLive_mono {used used' : List Version} (h : ∀ v ∈ used, v ∈ used') {instr : Instr}
    (hlive : instr.isLive used = true) : instr.isLive used' = true := by
  cases instr with
  | define target value => exact decide_eq_true (h target (of_decide_eq_true hlive))
  | join result operands guard => rfl
  | check cond => rfl

namespace Code

/-- A part of a list that has all of its joins and assertions, and in which every definition is
read. -/
structure Alive (code part : Code) : Prop where
  sublist : part.Sublist code
  kept : part.filter (·.target?.isNone) = code.filter (·.target?.isNone)
  read : ∀ target value, .define target value ∈ part → ∃ reader ∈ part, target ∈ reader.uses

variable {code part : Code}

theorem uses_of_sublist (h : part.Sublist code) : ∀ v ∈ uses part, v ∈ uses code := by
  intro v hv
  obtain ⟨instr, hmem, huse⟩ := mem_uses.mp hv
  exact mem_uses.mpr ⟨instr, h.subset hmem, huse⟩

theorem swept_iff : Swept code ↔
    ∀ target value, .define target value ∈ code → ∃ reader ∈ code, target ∈ reader.uses := by
  constructor
  · intro h target value hmem
    exact mem_uses.mp (h target (mem_targets.mpr ⟨value, hmem⟩))
  · intro h v hv
    obtain ⟨value, hmem⟩ := mem_targets.mp hv
    exact mem_uses.mpr (h v value hmem)

/-! ## The greatest part -/

/-- A sweep drops nothing of a part in which every definition is read: the part reads it in the list
as well. -/
theorem Swept.sublist_sweep (h : Swept part) (hsub : part.Sublist code) :
    part.Sublist (sweep code) := by
  have hlive : ∀ instr ∈ part, instr.isLive (uses code) = true := by
    intro instr hmem
    have hself := List.filter_eq_self.mp (sweep_eq_self_iff.mpr h) instr hmem
    exact Instr.isLive_mono (uses_of_sublist hsub) hself
  rw [← List.filter_eq_self.mpr hlive]
  exact hsub.filter _

/-- No number of sweeps drops anything of such a part. -/
theorem Swept.sublist_eliminateDead (h : Swept part) (hsub : part.Sublist code) :
    part.Sublist (eliminateDead code) := by
  revert hsub
  exact eliminateDead_induct (fun _ _ ih hsub => ih (h.sublist_sweep hsub)) (fun _ _ hsub => hsub)
    code

/-- What is left are the instructions that stay when what is left is read. -/
theorem eliminateDead_eq_filter (code : Code) :
    eliminateDead code = code.filter (Instr.isLive (uses (eliminateDead code))) := by
  have hself : sweep (eliminateDead code) = eliminateDead code :=
    sweep_eq_self_iff.mpr (swept_eliminateDead code)
  have hsub : (eliminateDead code).Sublist
      (code.filter (Instr.isLive (uses (eliminateDead code)))) := by
    have hfilter := (eliminateDead_sublist code).filter (Instr.isLive (uses (eliminateDead code)))
    rwa [show (eliminateDead code).filter (Instr.isLive (uses (eliminateDead code))) =
      eliminateDead code from hself] at hfilter
  refine hsub.antisymm (Swept.sublist_eliminateDead ?_ List.filter_sublist)
  intro v hv
  obtain ⟨value, hmem⟩ := mem_targets.mp hv
  exact uses_of_sublist hsub v (of_decide_eq_true (List.mem_filter.mp hmem).2)

theorem kept_sweep (code : Code) :
    (sweep code).filter (·.target?.isNone) = code.filter (·.target?.isNone) := by
  rw [sweep, List.filter_filter]
  refine List.filter_congr ?_
  intro instr _
  cases instr with
  | define target value => rfl
  | join result operands guard => rfl
  | check cond => rfl

theorem kept_eliminateDead (code : Code) :
    (eliminateDead code).filter (·.target?.isNone) = code.filter (·.target?.isNone) := by
  refine eliminateDead_induct (fun code _ ih => ?_) (fun _ _ => rfl) code
  rw [ih, kept_sweep]

theorem alive_eliminateDead (code : Code) : Alive code (eliminateDead code) :=
  ⟨eliminateDead_sublist code, kept_eliminateDead code, swept_iff.mp (swept_eliminateDead code)⟩

end Code

/-! ## What the optimizer records -/

/-- The pass is recorded if something was dropped, and otherwise nothing has happened. -/
theorem Optimized.step_deadCode (o : Optimized) : o.step .deadCode =
    if (Code.eliminateDead o.code).length < o.code.length then
      { o with code := Code.eliminateDead o.code, applied := .deadCode :: o.applied }
    else o := by
  by_cases hless : (Code.eliminateDead o.code).length < o.code.length
  · rw [if_pos hless]
    simp [step, Pass.run, (Code.elimination_changed_iff o.code).mpr hless, Code.eliminateDead]
  · rw [if_neg hless]
    exact step_eq_self (Decidable.not_not.mp (mt Code.length_eliminateDead_lt_iff.mpr hless))

/-- The elimination of dead code leaves a part that is alive and contains all others, in the order
of the list: an instruction is left if and only if it is no definition or is read by what is left.
The pass tells of a change if and only if something was dropped, and then it is recorded. So every definition that the optimizer
leaves is read, however many rounds it took. -/
theorem Code.eliminateDead_greatest (code : Code) :
    Alive code (eliminateDead code) ∧
      (∀ part, Alive code part → part.Sublist (eliminateDead code)) ∧
      eliminateDead code = code.filter (Instr.isLive (uses (eliminateDead code))) ∧
      (Pass.run .deadCode code).1 = eliminateDead code ∧
      ((Pass.run .deadCode code).2 = true ↔ (eliminateDead code).length < code.length) ∧
      (∀ o : Optimized, o.code = code → o.step .deadCode =
        if (eliminateDead code).length < code.length then
          { o with code := eliminateDead code, applied := .deadCode :: o.applied }
        else o) ∧
      ∀ target value, .define target value ∈ optimize code →
        0 < (uses (optimize code)).count target := by
  refine ⟨alive_eliminateDead code, ?_, eliminateDead_eq_filter code, rfl,
    elimination_changed_iff code, ?_, ?_⟩
  · intro part hpart
    exact Swept.sublist_eliminateDead (swept_iff.mpr hpart.read) hpart.sublist
  · rintro o rfl
    exact o.step_deadCode
  · intro target value hmem
    exact List.count_pos_iff.mpr (swept_optimize code target (mem_targets.mpr ⟨value, hmem⟩))

end WhileSmt
