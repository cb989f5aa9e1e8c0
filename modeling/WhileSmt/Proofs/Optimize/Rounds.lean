import WhileSmt.Optimize.Rounds
import WhileSmt.Proofs.Optimize.DeadCode
import WhileSmt.Proofs.Smt.Provenance
import WhileSmt.Proofs.Smt.Sorting
import WhileSmt.Proofs.Ssa.VersionText

/-!
The optimizer keeps the meaning of the instructions: every pass is a reduction, so every number of
rounds of passes is one. The script of the optimized instructions is satisfiable if the script of
the instructions is. The converse takes more, since a script knows versions by their texts only:
dropping a definition can separate two versions that are written alike.

Main statements: `Code.reduces_optimize`, `Code.Reduces.satisfiable` and
`Code.Reduces.satisfiable_of_dropsApart`.
-/

namespace WhileSmt

open Scope

/-! ## Rounds -/

theorem Pass.reduces_run (pass : Pass) (code : Code) : Code.Reduces code (pass.run code).1 := by
  cases pass with
  | constants => exact Code.reduces_propagate code
  | deadCode => exact Code.reduces_eliminateDead code

namespace Optimized

theorem code_step (o : Optimized) (pass : Pass) : (o.step pass).code = (pass.run o.code).1 :=
  rfl

/-- What every pass keeps, a round of passes keeps. -/
theorem steps_keep {P : Code → Prop} {passes : List Pass}
    (hpass : ∀ pass ∈ passes, ∀ code, P code → P (pass.run code).1) {o : Optimized} (h : P o.code) :
    P (passes.foldl step o).code := by
  induction passes generalizing o with
  | nil => exact h
  | cons pass rest ih =>
    rw [List.foldl_cons]
    refine ih (fun p hp => hpass p (List.mem_cons_of_mem _ hp)) ?_
    rw [code_step]
    exact hpass pass List.mem_cons_self o.code h

/-- What every pass keeps, any number of rounds keeps. -/
theorem run_keeps {P : Code → Prop} {passes : List Pass}
    (hpass : ∀ pass ∈ passes, ∀ code, P code → P (pass.run code).1) (limit : Nat) {o : Optimized}
    (h : P o.code) : P (run passes limit o).code := by
  induction limit generalizing o with
  | zero => exact h
  | succ limit ih =>
    rw [run]
    split
    · exact steps_keep hpass h
    · exact @ih { passes.foldl step o with rounds := o.rounds + 1 } (steps_keep hpass h)

/-- Any number of rounds of any passes is a reduction. -/
theorem reduces_run (passes : List Pass) (limit : Nat) (o : Optimized) :
    Code.Reduces o.code (run passes limit o).code :=
  run_keeps (fun pass _ code h => h.trans (pass.reduces_run code)) limit (.refl o.code)

end Optimized

theorem Code.reduces_optimize (code : Code) : Reduces code (optimize code) :=
  Optimized.reduces_run Pass.all roundLimit { code := code }

/-! ## Scripts -/

namespace Code

/-- No version that loses its definition is written like another version of the code. -/
def DropsApart (code code' : Code) : Prop :=
  ∀ v ∈ removedTargets code code', ∀ w, w ∈ defined code ∨ w ∈ uses code →
    v.text = w.text → v = w

namespace Reduces

variable {code code' : Code} {z : ZeroDivision}

/-- A valuation in which a script holds is one in which the reduced script does. -/
theorem satisfiable (h : Reduces code code') (hnodup : (defined code).Nodup)
    (hsat : (Script.verification code).Satisfiable z) :
    (Script.verification code').Satisfiable z := by
  obtain ⟨m, hm⟩ := hsat
  rw [Script.holds_verification_iff] at hm
  refine ⟨m, ?_⟩
  rw [Script.holds_verification_iff, h.same z _ hnodup]
  exact ⟨_, fun _ _ => rfl, hm⟩

/-- If the reduced script is satisfiable so is the script, unless a version that has lost its
definition shared its text. -/
theorem satisfiable_of_dropsApart (h : Reduces code code') (hnodup : (defined code).Nodup)
    (hapart : DropsApart code code') (hsat : (Script.verification code').Satisfiable z) :
    (Script.verification code).Satisfiable z := by
  obtain ⟨m, hm⟩ := hsat
  rw [Script.holds_verification_iff, h.same z _ hnodup] at hm
  obtain ⟨r, hkeep, hr⟩ := hm
  -- versions with one text are one version, or both of them have their values from `m`
  have htext : ∀ v w, v ∈ defined code ∨ v ∈ uses code → w ∈ defined code ∨ w ∈ uses code →
      v.text = w.text → r v = r w ∧ m.arrays v.text = m.arrays w.text := by
    intro v w hv hw hvw
    refine ⟨?_, by rw [hvw]⟩
    by_cases hdropv : v ∈ removedTargets code code'
    · rw [hapart v hdropv w hw hvw]
    · by_cases hdropw : w ∈ removedTargets code code'
      · rw [hapart w hdropw v hv hvw.symm]
      · rw [hkeep v hdropv, hkeep w hdropw, hvw]
  obtain ⟨m', hm'⟩ := Valuation.exists_of_versions htext
  refine ⟨m', (Script.holds_verification ?_ ?_ ?_).mpr hr⟩
  · exact fun v hv => (hm' v (.inl hv)).1
  · exact fun v hv => (hm' v (.inr hv)).1
  · exact fun a ha => (hm' a (.inr (uses_of_arrays ha))).2

theorem oneSorted (h : Reduces code code') (hsorts : OneSorted code) : OneSorted code' :=
  fun x a b ha hb => hsorts x a b (h.symbols _ ha) (h.symbols _ hb)

end Reduces

end Code

/-- Versions without markers are never written alike. -/
theorem Code.dropsApart_of_unmarked {code : Code}
    (h : ∀ v, v ∈ defined code ∨ v ∈ uses code → v.marker = none) (code' : Code) :
    DropsApart code code' := by
  intro v hv w hw hvw
  obtain ⟨value, hmem⟩ := mem_targets.mp (mem_removedTargets.mp hv).1
  have hdef : v ∈ defined code := mem_defined.mpr ⟨_, hmem, rfl⟩
  exact Version.eq_of_text_eq (h v (.inl hdef)) (h w hw) hvw

theorem Program.dropsApart {p : Program} {f : SsaForm} (h : p.toSsa = .ok f) (code' : Code) :
    Code.DropsApart f.code code' := by
  obtain ⟨code, s, hnum, hssa⟩ := p.exists_toSsa
  rw [hssa] at h
  cases h
  have hwithin := (hnum.step valid_empty).within
  exact Code.dropsApart_of_unmarked (fun v hv => hwithin.unmarked v (List.mem_append.mpr hv)) code'

end WhileSmt
