import WhileSmt.Proofs.Optimize.Rounds
import WhileSmt.Proofs.Smt.Equivalence

/-!
Optimized programs in equivalence scripts. The optimizer keeps what both programs say, but the
outputs are found among the definitions that it leaves, so it changes what is compared where it
drops an output.

Main statement: `Program.equivalence_optimize_iff`.
-/

namespace WhileSmt

open Scope

namespace Code

/-- An output that the optimizer leaves has not lost its definition. -/
theorem not_removed_of_mem_outputs {code code' : Code} {v : Version} (h : v ∈ outputs code') :
    v ∉ removedTargets code code' := by
  intro hgone
  exact (mem_removedTargets.mp hgone).2 (mem_targets.mpr (exists_define_of_mem_outputs h))

/-- Two programs can have values in which the outputs agree in pairs that two other lists of
instructions for their versions have. -/
def AgreeOn (z : ZeroDivision) (first second left right : Code) : Prop :=
  ∃ m, (Script.verification first).Holds z m ∧
    (Script.verification (mark Script.secondMarker second)).Holds z m ∧
    List.Forall₂ (fun a b => m.ints a.text = m.ints b.text) (outputs left)
      (outputs (mark Script.secondMarker right))

/-- Only the outputs of the lists matter. -/
theorem agreeOn_congr {z : ZeroDivision} {first second left left' right right' : Code}
    (hleft : outputs left = outputs left') (hright : outputs right = outputs right') :
    AgreeOn z first second left right ↔ AgreeOn z first second left' right' := by
  rw [AgreeOn, AgreeOn, outputs_mark, outputs_mark, hleft, hright]

end Code

/-- Two lists of values, one for the versions of each of two programs, are the values of one
valuation, which has the arrays of any other. -/
theorem Valuation.exists_pair (m : Valuation) (r₁ r₂ : Version → Int) :
    ∃ m' : Valuation, ∀ v : Version, v.marker = none →
      m'.ints v.text = r₁ v ∧ m'.arrays v.text = m.arrays v.text ∧
        m'.ints (v.mark Script.secondMarker).text = r₂ v ∧
        m'.arrays (v.mark Script.secondMarker).text =
          m.arrays (v.mark Script.secondMarker).text :=
  exists_of_programs r₁ r₂ (fun v => m.arrays v.text) fun v =>
    m.arrays (v.mark Script.secondMarker).text

namespace Program

theorem exists_ssaForm (p : Program) : ∃ f, p.toSsa = .ok f := by
  obtain ⟨code, s, -, h⟩ := p.exists_toSsa
  exact ⟨_, h⟩

/-- The versions of a numbered program have no marker, and none is defined twice. -/
theorem unmarked_of_toSsa {p : Program} {f : SsaForm} (h : p.toSsa = .ok f) :
    (∀ v, v ∈ Code.defined f.code ∨ v ∈ Code.uses f.code → v.marker = none) ∧
      (Code.defined f.code).Nodup := by
  obtain ⟨code, s, hnum, hssa⟩ := p.exists_toSsa
  rw [hssa] at h
  cases h
  have hwithin := (hnum.step valid_empty).within
  exact ⟨fun v hv => hwithin.unmarked v (List.mem_append.mpr hv), hwithin.nodup⟩

/-- The values of two optimized programs can be completed to values of the programs themselves, and
the outputs that are left keep theirs. -/
theorem exists_holds_of_optimize {z : ZeroDivision} {p q : Program} {f g : SsaForm}
    (hp : p.toSsa = .ok f) (hq : q.toSsa = .ok g) {m : Valuation}
    (hfirst : (Script.verification (Code.optimize f.code)).Holds z m)
    (hsecond : (Script.verification
      (Code.mark Script.secondMarker (Code.optimize g.code))).Holds z m) :
    ∃ m' : Valuation, (Script.verification f.code).Holds z m' ∧
      (Script.verification (Code.mark Script.secondMarker g.code)).Holds z m' ∧
      (∀ v ∈ Code.outputs (Code.optimize f.code), m'.ints v.text = m.ints v.text) ∧
      ∀ v ∈ Code.outputs (Code.mark Script.secondMarker (Code.optimize g.code)),
        m'.ints v.text = m.ints v.text := by
  obtain ⟨hunmarked₁, hnodup₁⟩ := unmarked_of_toSsa hp
  obtain ⟨hunmarked₂, hnodup₂⟩ := unmarked_of_toSsa hq
  -- each program takes back the values of what it has lost
  rw [Script.holds_verification_iff,
    (Code.reduces_optimize f.code).same z _ hnodup₁] at hfirst
  obtain ⟨r₁, hkeep₁, hsat₁⟩ := hfirst
  rw [Script.holds_verification_iff, Code.satisfied_mark] at hsecond
  obtain ⟨r₂, hkeep₂, hsat₂⟩ := ((Code.reduces_optimize g.code).same z
    (fun a _ => m.arrays (a.mark Script.secondMarker).text) hnodup₂ _).mp hsecond
  obtain ⟨m', hm'⟩ := m.exists_pair r₁ r₂
  have hnames₁ : ∀ v, v ∈ Code.defined f.code ∨ v ∈ Code.uses f.code →
      m'.ints v.text = r₁ v ∧ m'.arrays v.text = m.arrays v.text := fun v hv =>
    ⟨(hm' v (hunmarked₁ v hv)).1, (hm' v (hunmarked₁ v hv)).2.1⟩
  have houtput : ∀ {code code' : Code}, Code.Reduces code code' → ∀ v ∈ Code.outputs code',
      v ∈ Code.defined code := by
    intro code code' hreduces v hv
    have htarget := hreduces.targets v
      (Code.mem_targets.mpr (Code.exists_define_of_mem_outputs hv))
    obtain ⟨value, hmem⟩ := Code.mem_targets.mp htarget
    exact Code.mem_defined.mpr ⟨_, hmem, rfl⟩
  refine ⟨m', ?_, ?_, ?_, ?_⟩
  · refine (Script.holds_verification ?_ ?_ ?_).mpr hsat₁
    · exact fun v hv => (hnames₁ v (.inl hv)).1
    · exact fun v hv => (hnames₁ v (.inr hv)).1
    · exact fun a ha => (hnames₁ a (.inr (Code.uses_of_arrays ha))).2
  · have hmarked : ∀ v, v ∈ Code.defined g.code ∨ v ∈ Code.uses g.code →
        m'.ints (v.mark Script.secondMarker).text = r₂ v ∧
          m'.arrays (v.mark Script.secondMarker).text =
            m.arrays (v.mark Script.secondMarker).text := fun v hv =>
      (hm' v (hunmarked₂ v hv)).2.2
    have hsat : Code.Satisfied (Meaning.integers z fun a _ => m.arrays a.text)
        (fun v => m'.ints v.text) (Code.mark Script.secondMarker g.code) :=
      Code.satisfied_mark.mpr (hsat₂.congr fun v hv => (hmarked v hv).1)
    refine (Script.holds_verification (fun _ _ => rfl) (fun _ _ => rfl) ?_).mpr hsat
    intro a ha
    have huse := Code.uses_of_arrays ha
    rw [Code.uses_mark] at huse
    obtain ⟨v, hv, rfl⟩ := List.mem_map.mp huse
    exact (hmarked v (.inr hv)).2
  · intro v hv
    rw [(hnames₁ v (.inl (houtput (Code.reduces_optimize f.code) v hv))).1]
    exact hkeep₁ v (Code.not_removed_of_mem_outputs hv)
  · intro v hv
    rw [Code.outputs_mark] at hv
    obtain ⟨w, hw, rfl⟩ := List.mem_map.mp hv
    have hunmarked := hunmarked₂ w (.inl (houtput (Code.reduces_optimize g.code) w hw))
    rw [(hm' w hunmarked).2.2.1]
    exact hkeep₂ w (Code.not_removed_of_mem_outputs hw)

/-- Two programs are compared for the outputs that they have. -/
theorem equivalence_iff {z : ZeroDivision} {first second : Code} :
    (Script.equivalence first second).Satisfiable z ↔
      Code.AgreeOn z first second first second := by
  simp only [Script.Satisfiable, Script.holds_equivalence_iff, Code.AgreeOn]

/-- Two optimized programs are compared for the outputs that the optimizer has left. -/
theorem equivalence_optimize_iff {z : ZeroDivision} {p q : Program} {f g : SsaForm}
    (hp : p.toSsa = .ok f) (hq : q.toSsa = .ok g) :
    (Script.equivalence (Code.optimize f.code) (Code.optimize g.code)).Satisfiable z ↔
      Code.AgreeOn z f.code g.code (Code.optimize f.code) (Code.optimize g.code) := by
  simp only [Script.Satisfiable, Script.holds_equivalence_iff, Code.AgreeOn]
  constructor
  · rintro ⟨m, hfirst, hsecond, houtputs⟩
    obtain ⟨m', hfirst', hsecond', hsame₁, hsame₂⟩ :=
      exists_holds_of_optimize hp hq hfirst hsecond
    refine ⟨m', hfirst', hsecond', ?_⟩
    rw [List.forall₂_iff_zip] at houtputs ⊢
    refine ⟨houtputs.1, ?_⟩
    intro a b hab
    rw [hsame₁ a (List.of_mem_zip hab).1, hsame₂ b (List.of_mem_zip hab).2]
    exact houtputs.2 hab
  · rintro ⟨m, hfirst, hsecond, houtputs⟩
    refine ⟨m, ?_, ?_, houtputs⟩
    · rw [Script.holds_verification_iff,
        (Code.reduces_optimize f.code).same z _ (unmarked_of_toSsa hp).2]
      exact ⟨_, fun _ _ => rfl, Script.holds_verification_iff.mp hfirst⟩
    · rw [Script.holds_verification_iff, Code.satisfied_mark] at hsecond ⊢
      exact ((Code.reduces_optimize g.code).same z
        (fun a _ => m.arrays (a.mark Script.secondMarker).text) (unmarked_of_toSsa hq).2 _).mpr
        ⟨_, fun _ _ => rfl, hsecond⟩

end Program

end WhileSmt
