import Mathlib.Logic.ExistsUnique
import WhileSmt.Proofs.Optimize.DeadCode
import WhileSmt.Proofs.Smt.Provenance
import WhileSmt.Proofs.Ssa.VersionText
import WhileSmt.Proofs.Ssa.WellFormed

/-!
The equations of a program. They never contradict each other, and they leave no choice but that of
the inputs and of the values that loops carry: for every such choice there is one solution, whatever
the operations mean. So only assertions can make a script unsatisfiable.

Main statement: `Program.equations_determine`.
-/

namespace WhileSmt

universe u

open Scope

namespace Code

variable {code : Code} {v : Version}

/-- No definition and no guarded join is for the version. -/
def Undetermined (code : Code) (v : Version) : Prop :=
  (∀ value, Instr.define v value ∉ code) ∧
    ∀ operands guard, Instr.join v operands (some guard) ∉ code

theorem undetermined_iff
    (hpaired : ∀ v operands guard, Instr.join v operands guard ∈ code → ∃ a b, operands = [a, b]) :
    Undetermined code v ↔ v ∉ bound code := by
  constructor
  · rintro ⟨hdefine, hjoin⟩ hv
    obtain ⟨instr, hmem, hv⟩ := mem_bound.mp hv
    unfold Instr.bound? at hv
    split at hv
    · cases hv
      exact hdefine _ hmem
    · cases hv
      exact hjoin _ _ hmem
    · cases hv
  · intro hv
    refine ⟨?_, ?_⟩
    · intro value hmem
      exact hv (mem_bound.mpr ⟨_, hmem, rfl⟩)
    · intro operands guard hmem
      obtain ⟨a, b, rfl⟩ := hpaired _ _ _ hmem
      exact hv (mem_bound.mpr ⟨_, hmem, rfl⟩)

end Code

namespace Scope.Step

variable {w r : List String} {code : Code} {s : Scope} {v : Version}

/-- Of the versions of a program, the inputs and the results of joins without a guard have no
equation. -/
theorem not_bound_iff (h : Step w r {} code s) (hv : v ∈ Code.defined code ++ Code.uses code) :
    v ∉ Code.bound code ↔ (v.number = 0 ∧ v.marker = none ∧ v ∉ Code.defined code) ∨
      ∃ operands, Instr.join v operands none ∈ code := by
  constructor
  · intro hbound
    by_cases hdef : v ∈ Code.defined code
    · have hunguarded := (Code.bound_or_unguarded h.paired hdef).resolve_left hbound
      exact .inr (Code.mem_unguarded.mp hunguarded)
    · obtain ⟨instr, hmem, hv⟩ := Code.mem_uses.mp ((List.mem_append.mp hv).resolve_left hdef)
      obtain ⟨i, hi⟩ := List.mem_iff_getElem?.mp hmem
      rcases h.wellFormed.reached i instr hi v hv with hinput | ⟨j, -, earlier, hj, hdef'⟩ | hjoin
      · exact .inl hinput
      · exact absurd (Code.mem_defined.mpr ⟨earlier, List.mem_of_getElem? hj, hdef'⟩) hdef
      · exact .inr hjoin
  · rintro (⟨-, -, hdef⟩ | ⟨operands, hjoin⟩) hbound
    · exact hdef (Code.defined_of_bound hbound)
    · -- a version with an equation would have a second definition
      obtain ⟨instr, hmem, hv⟩ := Code.mem_bound.mp hbound
      cases Code.eq_of_defined h.within.nodup hmem hjoin (Instr.defined?_of_bound? hv) rfl
      simp [Instr.bound?] at hv

/-- The equations of a program hold of some valuation with any given arrays and values of the
versions without an equation. -/
theorem exists_valuation (h : Step w r {} code s) (z : ZeroDivision) (m₀ : Valuation) :
    ∃ m : Valuation, m.arrays = m₀.arrays ∧
      (∀ v ∈ Code.defined code ++ Code.uses code, v ∉ Code.bound code →
        m.ints v.text = m₀.ints v.text) ∧
      ∀ t ∈ Code.equations code, t.eval z m = true := by
  obtain ⟨values, hsolved, hkeep⟩ := h.within.acyclic.exists_solved
    (Meaning.integers z fun a _ => m₀.arrays a.text) fun v => m₀.ints v.text
  -- versions of a program have no marker, so different ones are written differently
  have htext : ∀ v w : Version, v.marker = none → w.marker = none → v.text = w.text →
      values v = values w ∧ m₀.arrays v.text = m₀.arrays w.text := by
    intro v w hv hw heq
    rw [Version.eq_of_text_eq hv hw heq]
    exact ⟨rfl, rfl⟩
  obtain ⟨m, hm⟩ := Valuation.exists_of_versions htext
  have hdef : ∀ v ∈ Code.defined code, m.ints v.text = values v := fun v hv =>
    (hm v (h.within.defined v hv).1.1).1
  have huse : ∀ v ∈ Code.uses code, m.ints v.text = values v := fun v hv =>
    (hm v (h.within.uses v hv).1).1
  refine ⟨⟨m.ints, m₀.arrays⟩, rfl, ?_,
    (Code.eval_equations (m := ⟨m.ints, m₀.arrays⟩) hdef huse fun _ _ => rfl).mpr hsolved⟩
  intro v hv hbound
  rw [← hkeep v hbound]
  rcases List.mem_append.mp hv with hv | hv
  · exact hdef v hv
  · exact huse v hv

end Scope.Step

/-- The equations of a program determine all versions but the inputs and the results of the joins
at the entries of loops, for any operations and any choice of these. So some valuation makes all
constraints true. -/
theorem Program.equations_determine (p : Program) :
    ∃ f, p.toSsa = .ok f ∧
      (∀ result operands guard, Instr.join result operands (some guard) ∈ f.code →
        ∃ first second, operands = [first, second]) ∧
      (∀ v ∈ Code.defined f.code ++ Code.uses f.code, Code.Undetermined f.code v ↔
        (v.number = 0 ∧ v.marker = none ∧ v ∉ Code.defined f.code) ∨
          ∃ operands, Instr.join v operands none ∈ f.code) ∧
      (∀ (δ : Type u) (O : Operations δ) (free : Version → δ),
        ∃! r : Version → δ, O.Solves r f.code ∧
          ∀ v, Code.Undetermined f.code v → r v = free v) ∧
      ∀ (z : ZeroDivision) (m₀ : Valuation), ∃ m : Valuation, m.arrays = m₀.arrays ∧
        (∀ v ∈ Code.defined f.code ++ Code.uses f.code, Code.Undetermined f.code v →
          m.ints v.text = m₀.ints v.text) ∧
        ∀ t ∈ (Script.verification f.code).constraints, t.eval z m = true := by
  obtain ⟨code, s, hnum, hssa⟩ := p.exists_toSsa
  have hstep := hnum.step valid_empty
  have hfree : ∀ v, Code.Undetermined code v ↔ v ∉ Code.bound code := fun v =>
    Code.undetermined_iff hstep.paired
  simp only [hssa, Except.ok.injEq, exists_eq_left', hfree]
  refine ⟨fun _ _ _ hmem => hstep.paired _ _ _ hmem, fun v hv => hstep.not_bound_iff hv, ?_,
    hstep.exists_valuation⟩
  intro δ O free
  exact ⟨O.solution free code, hstep.within.acyclic.solves_iff.mpr rfl,
    fun r hr => hstep.within.acyclic.solves_iff.mp hr⟩

end WhileSmt
