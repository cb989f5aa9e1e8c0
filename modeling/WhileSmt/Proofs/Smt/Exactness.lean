import WhileSmt.Proofs.Smt.SortsApart
import WhileSmt.Proofs.Ssa.LoopFree

/-!
Verification of programs without loops is exact: the script of such a program is satisfiable if and
only if the program has a run in which every assertion holds.

Main statement: `Program.verification_exact`.
-/

namespace WhileSmt

open Scope

/-- The verification script of a program without loops, with all assertions outside of its branches,
with arrays apart from other names, and whose branches assign only known names: it is well-sorted,
and it has a model if and only if some store and some arrays lead to a run in which no condition of
an assertion is zero. -/
theorem Program.verification_exact (z : ZeroDivision) {p : Program}
    (hloops : (Block.counts p.statements).loops = 0)
    (hchecks : Block.checksOutside p.statements = true) (hapart : p.arraysApart = true)
    (hprep : p.prepared = true) :
    ∃ f, p.toSsa = .ok f ∧ (Script.verification f.code).WellSorted ∧
      ((Script.verification f.code).Satisfiable z ↔
        ∃ (arrays : String → Int → Int) (σ σ' : Store Int) (vs : List Int),
          Block.Run (Meaning.integers z fun a _ => arrays a) p.statements σ vs σ' ∧
            ∀ d ∈ vs, d ≠ 0) := by
  obtain ⟨code, s, hnum, hssa⟩ := p.exists_toSsa
  refine ⟨_, hssa, Script.wellSorted_verification (oneSorted hnum hapart), ?_⟩
  constructor
  · -- a model gives values to the versions, and they are the values of a run
    rintro ⟨m, hm⟩
    let arrays : String → Int → Int := fun a => m.arrays (Version.text { base := a, number := 0 })
    have harrays : ∀ a ∈ Code.arrays code, m.arrays a.text = arrays a.base := fun a ha =>
      congrArg (fun v : Version => m.arrays v.text) (array_input hnum hapart ha)
    obtain ⟨hsolved, hpassed⟩ :=
      (Script.holds_verification (fun _ _ => rfl) (fun _ _ => rfl) harrays).mp hm
    obtain ⟨vs, σ', hrun, htracked⟩ := hnum.exists_run_tracked
      (M := Meaning.integers z fun a _ => arrays a) valid_empty hprep hloops hsolved
    refine ⟨arrays, _, σ', vs, hrun, ?_⟩
    intro d hd
    have htrue := (htracked.passed_iff hnum valid_empty hrun hchecks).mp hpassed d hd
    simpa using htrue
  · -- a run gives values to the versions, and different versions have different texts
    rintro ⟨arrays, σ, σ', vs, hrun, hvs⟩
    obtain ⟨r, hsolved, -, -, htracked⟩ :=
      hnum.exists_tracked (r := fun v => σ v.base) valid_empty hprep hrun fun _ => rfl
    have hpassed := (htracked.passed_iff hnum valid_empty hrun hchecks).mpr fun d hd => by
      simpa using hvs d hd
    have htext : ∀ v w : Version, v.marker = none → w.marker = none → v.text = w.text →
        r v = r w ∧ arrays v.base = arrays w.base := by
      intro v w hv hw h
      rw [Version.eq_of_text_eq hv hw h]
      exact ⟨rfl, rfl⟩
    obtain ⟨m, hm⟩ := Valuation.exists_of_versions htext
    have hwithin := (hnum.step valid_empty).within
    have huses : ∀ v ∈ Code.uses code, v.marker = none := fun v hv => (hwithin.uses v hv).1
    refine ⟨m, (Script.holds_verification ?_ ?_ ?_).mpr ⟨hsolved, hpassed⟩⟩
    · exact fun v hv => (hm v (hwithin.defined v hv).1.1).1
    · exact fun v hv => (hm v (huses v hv)).1
    · exact fun a ha => (hm a (huses a (Code.uses_of_arrays ha))).2

/-- A branch on an element of an array, and an assertion after it. -/
def branchOnArray : Program where
  statements :=
    [.assign {} { target := "x", value := .index "a" (.lit 0) },
      .ifElse {} (.binary (.cmp .gt) (.var "x") (.lit 0))
        [.assign {} { target := "x", value := .binary (.arith .sub) (.var "x") (.lit 1) }]
        [.assign {} { target := "x", value := .lit 7 }],
      .check {} (.binary (.cmp .eq) (.var "x") (.lit 2))]

/-- The assertion of `branchOnArray` can hold: the element is three. -/
theorem branchOnArray_satisfiable :
    ∃ f, branchOnArray.toSsa = .ok f ∧
      (Script.verification f.code).Satisfiable ⟨fun _ => 0, fun _ => 0⟩ := by
  obtain ⟨f, hssa, -, hexact⟩ := Program.verification_exact (p := branchOnArray)
    ⟨fun _ => 0, fun _ => 0⟩ (by decide) (by decide) (by decide) (by decide)
  have hrun : Block.Run (Meaning.integers ⟨fun _ => 0, fun _ => 0⟩ fun _ _ _ => 3)
      branchOnArray.statements (fun _ => 0) _ _ :=
    .assign (.ifTrue rfl (.assign (.nil _)) (.check (.nil _)))
  exact ⟨f, hssa, hexact.mpr ⟨fun _ _ => 3, _, _, _, hrun, by decide⟩⟩

end WhileSmt
