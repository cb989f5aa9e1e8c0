import WhileSmt.Proofs.Optimize.Outputs
import WhileSmt.Proofs.Smt.Declarations
import WhileSmt.Proofs.Smt.Outputs

/-!
What a solver answers about optimized programs. The script of the optimized instructions has the
answer of the script of the instructions, if no version that loses its definition is written like
another one and no name occurs in two sorts. A comparison of two optimized programs is about the
outputs that the optimizer has left, and so it has another answer where the optimizer has dropped
one.

Main statements: `Code.optimize_same` and `Program.equivalence_optimize`. What fails without their
conditions is `Code.optimize_forgets_clash` and `Program.equivalence_forgets_outputs`.
-/

namespace WhileSmt

/-! ## The assertions of one program -/

/-- Values satisfy optimized instructions if and only if they satisfy the instructions themselves,
up to the values of the versions whose definitions are dropped. The script stays satisfiable, and
it does not become so unless a dropped version was written like another one, which does not happen
in a numbered program. If moreover no name occurs in two sorts, as in a program that keeps its arrays
apart, a solver accepts both scripts and gives the same answer to both. -/
theorem Code.optimize_same {code : Code} (h : checkSingle code = .ok ()) (z : ZeroDivision) :
    (∀ arrays r, Satisfied (Meaning.integers z arrays) r (optimize code) ↔
      ∃ r', (∀ v, v ∉ removedTargets code (optimize code) → r' v = r v) ∧
        Satisfied (Meaning.integers z arrays) r' code) ∧
    ((Script.verification code).Satisfiable z →
      (Script.verification (optimize code)).Satisfiable z) ∧
    (DropsApart code (optimize code) →
      ((Script.verification code).Satisfiable z ↔
        (Script.verification (optimize code)).Satisfiable z)) ∧
    (OneSorted code →
      (Script.verification code).WellSorted ∧
        (Script.verification (optimize code)).WellSorted) ∧
    (DropsApart code (optimize code) → OneSorted code →
      ((Script.verification code).IsSat z ↔ (Script.verification (optimize code)).IsSat z)) ∧
    ∀ p f, Program.toSsa p = .ok f → f.code = code →
      DropsApart code (optimize code) ∧ (p.arraysApart = true → OneSorted code) := by
  have hreduces := reduces_optimize code
  have hnodup := checkSingle_eq_ok_iff.mp h
  have hsame : DropsApart code (optimize code) → ((Script.verification code).Satisfiable z ↔
      (Script.verification (optimize code)).Satisfiable z) := fun hapart =>
    ⟨hreduces.satisfiable hnodup, hreduces.satisfiable_of_dropsApart hnodup hapart⟩
  have hsorted : OneSorted code → (Script.verification code).WellSorted ∧
      (Script.verification (optimize code)).WellSorted := fun hsorts =>
    ⟨Script.wellSorted_verification hsorts,
      Script.wellSorted_verification (hreduces.oneSorted hsorts)⟩
  refine ⟨fun arrays => hreduces.same z arrays hnodup, hreduces.satisfiable hnodup, hsame, hsorted,
    ?_, ?_⟩
  · intro hapart hsorts
    exact (hsorted hsorts).1.isSat_congr (hsorted hsorts).2 (hsame hapart)
  · rintro p f hssa rfl
    exact ⟨Program.dropsApart hssa (optimize f.code),
      fun hapart => (Program.sortsApart_of_toSsa hssa hapart).2.1.oneSorted⟩

/-- A sum, its square, which nobody reads, and an assertion about the sum. -/
def unreadSquare : Code :=
  [.define ⟨"x", 0, none⟩ (.lit 3),
    .define ⟨"y", 0, none⟩ (.binary (.arith .add) (.var ⟨"x", 0, none⟩) (.lit 4)),
    .define ⟨"q", 0, none⟩ (.binary (.arith .mul) (.var ⟨"y", 0, none⟩) (.var ⟨"y", 0, none⟩)),
    .check (.binary (.cmp .eq) (.var ⟨"y", 0, none⟩) (.lit 7))]

/-- The assertion of `unreadSquare` can hold, since it can in the one instruction that is left. -/
theorem unreadSquare_satisfiable :
    Code.checkSingle unreadSquare = .ok () ∧
      Code.optimize unreadSquare = [.check (.lit 1)] ∧
      (Script.verification unreadSquare).IsSat ⟨fun _ => 0, fun _ => 0⟩ := by
  have hsingle : Code.checkSingle unreadSquare = .ok () := by decide
  have hleft : Code.optimize unreadSquare = [.check (.lit 1)] := by decide +kernel
  have hunmarked : ∀ v ∈ Code.defined unreadSquare ++ Code.uses unreadSquare, v.marker = none := by
    decide
  have hapart := Code.dropsApart_of_unmarked (fun v hv => hunmarked v (List.mem_append.mpr hv))
    (Code.optimize unreadSquare)
  have hsorts : Code.SortsApart unreadSquare := by decide +kernel
  have hsame := (Code.optimize_same hsingle ⟨fun _ => 0, fun _ => 0⟩).2.2.2.2.1 hapart
    hsorts.oneSorted
  refine ⟨hsingle, hleft, hsame.mpr ⟨?_, ?_⟩⟩
  · exact Script.wellSorted_verification hsorts.optimize.oneSorted
  rw [hleft]
  refine ⟨⟨fun _ => 0, fun _ _ => 0⟩, ?_⟩
  rw [Script.holds_verification_iff]
  exact ⟨List.forall_mem_singleton.mpr trivial, List.forall_mem_singleton.mpr rfl⟩

/-- Two versions that are both written `x_0_1`, with different values. -/
def clashingTexts : Code :=
  [.define ⟨"x", 0, some "1"⟩ (.lit 1), .define ⟨"x_0", 1, none⟩ (.lit 2)]

/-- Reads `a` as a scalar, for a name that nobody reads, and as an array. -/
def scalarAndArray : Code :=
  [.define ⟨"y", 0, none⟩ (.var ⟨"a", 0, none⟩),
    .define ⟨"x", 0, none⟩ (.index ⟨"a", 0, none⟩ (.lit 0)),
    .check (.binary (.cmp .gt) (.var ⟨"x", 0, none⟩) (.lit 0))]

/-- A script that asks for two values of one constant can become satisfiable: the optimizer drops
both definitions, which are for different versions. And a script that a solver refuses can become
one that it accepts: the optimizer drops the definition in which an array is a scalar. -/
theorem Code.optimize_forgets_clash :
    (checkSingle clashingTexts = .ok () ∧
      ¬ (Script.verification clashingTexts).Satisfiable ⟨fun _ => 0, fun _ => 0⟩ ∧
      (Script.verification (optimize clashingTexts)).IsSat ⟨fun _ => 0, fun _ => 0⟩) ∧
    checkSingle scalarAndArray = .ok () ∧
      ¬ (Script.verification scalarAndArray).WellSorted ∧
      (Script.verification (optimize scalarAndArray)).IsSat ⟨fun _ => 0, fun _ => 0⟩ := by
  refine ⟨⟨by decide, ?_, ?_⟩, by decide, ?_, ?_⟩
  · have htext : Version.text ⟨"x", 0, some "1"⟩ = Version.text ⟨"x_0", 1, none⟩ := by
      decide +kernel
    rintro ⟨m, hm⟩
    obtain ⟨hsolved, -⟩ := Script.holds_verification_iff.mp hm
    have hone : m.ints (Version.text ⟨"x", 0, some "1"⟩) = 1 :=
      hsolved (.define ⟨"x", 0, some "1"⟩ (.lit 1)) (by simp [clashingTexts])
    have htwo : m.ints (Version.text ⟨"x_0", 1, none⟩) = 2 :=
      hsolved (.define ⟨"x_0", 1, none⟩ (.lit 2)) (by simp [clashingTexts])
    rw [htext, htwo] at hone
    cases hone
  · have hleft : optimize clashingTexts = [] := by decide +kernel
    rw [hleft]
    exact ⟨Script.wellSorted_verification fun _ _ _ hmem => absurd hmem List.not_mem_nil,
      ⟨fun _ => 0, fun _ _ => 0⟩, List.forall_mem_nil _⟩
  · intro hsorted
    -- the first use of the name declares it an integer
    have hnot : (Version.text ⟨"a", 0, none⟩, Srt.array) ∉
        (Script.verification scalarAndArray).declarations := by decide +kernel
    refine hnot (hsorted.declared (.rel .eq (.const (Version.text ⟨"x", 0, none⟩))
      (.select (.array (Version.text ⟨"a", 0, none⟩)) (.numeral 0))) ?_ _ ?_)
    · exact List.mem_append_left _ (List.mem_cons_of_mem _ List.mem_cons_self)
    · simp [Term.symbols]
  · have hleft : optimize scalarAndArray =
        [.define ⟨"x", 0, none⟩ (.index ⟨"a", 0, none⟩ (.lit 0)),
          .check (.binary (.cmp .gt) (.var ⟨"x", 0, none⟩) (.lit 0))] := by decide +kernel
    have hsorts : SortsApart (optimize scalarAndArray) := by
      rw [hleft]
      decide +kernel
    refine ⟨Script.wellSorted_verification hsorts.oneSorted, ⟨fun _ => 1, fun _ _ => 1⟩, ?_⟩
    rw [hleft, Script.holds_verification_iff]
    simp [Satisfied, Solved, Passed, Instr.Solved, Instr.Passed, Expr.eval, Meaning.integers,
      BinOp.value, Cmp.holds, truthValue]

/-! ## The outputs of two programs -/

namespace Program

/-- The script that compares two optimized programs asks for values of the programs themselves in
which the outputs agree that the optimizer has left. So where the optimizer drops no output, its
answer is that of the script for the programs themselves, and so is the mismatch that it records. If
the programs keep their arrays apart, a solver accepts both scripts, and this is about its answers. -/
theorem equivalence_optimize (z : ZeroDivision) (p q : Program) :
    ∃ f g, p.toSsa = .ok f ∧ q.toSsa = .ok g ∧
      ((Script.equivalence (Code.optimize f.code) (Code.optimize g.code)).Satisfiable z ↔
        Code.AgreeOn z f.code g.code (Code.optimize f.code) (Code.optimize g.code)) ∧
      ((Script.equivalence f.code g.code).Satisfiable z ↔
        Code.AgreeOn z f.code g.code f.code g.code) ∧
      (Code.outputs (Code.optimize f.code) = Code.outputs f.code →
        Code.outputs (Code.optimize g.code) = Code.outputs g.code →
        ((Script.equivalence (Code.optimize f.code) (Code.optimize g.code)).Satisfiable z ↔
          (Script.equivalence f.code g.code).Satisfiable z) ∧
        (Script.equivalence (Code.optimize f.code) (Code.optimize g.code)).mismatch =
          (Script.equivalence f.code g.code).mismatch) ∧
      (p.arraysApart = true → q.arraysApart = true →
        (Script.equivalence f.code g.code).WellSorted ∧
        ((Script.equivalence (Code.optimize f.code) (Code.optimize g.code)).IsSat z ↔
          Code.AgreeOn z f.code g.code (Code.optimize f.code) (Code.optimize g.code)) ∧
        (Code.outputs (Code.optimize f.code) = Code.outputs f.code →
          Code.outputs (Code.optimize g.code) = Code.outputs g.code →
          ((Script.equivalence (Code.optimize f.code) (Code.optimize g.code)).IsSat z ↔
            (Script.equivalence f.code g.code).IsSat z))) := by
  obtain ⟨f, hp⟩ := p.exists_ssaForm
  obtain ⟨g, hq⟩ := q.exists_ssaForm
  have hcompared := equivalence_optimize_iff (z := z) hp hq
  have hsame : Code.outputs (Code.optimize f.code) = Code.outputs f.code →
      Code.outputs (Code.optimize g.code) = Code.outputs g.code →
      ((Script.equivalence (Code.optimize f.code) (Code.optimize g.code)).Satisfiable z ↔
        (Script.equivalence f.code g.code).Satisfiable z) := by
    intro hf hg
    rw [hcompared, equivalence_iff, Code.agreeOn_congr hf hg]
  refine ⟨f, g, hp, hq, hcompared, equivalence_iff, ?_, ?_⟩
  · intro hf hg
    refine ⟨hsame hf hg, ?_⟩
    rw [Script.mismatch_equivalence, Script.mismatch_equivalence, hf, hg]
  · intro hapart₁ hapart₂
    obtain ⟨hunmarked₁, hsorts₁, hunmarked₁', hsorts₁'⟩ := sortsApart_of_toSsa hp hapart₁
    obtain ⟨hunmarked₂, hsorts₂, hunmarked₂', hsorts₂'⟩ := sortsApart_of_toSsa hq hapart₂
    have hplain := Script.wellSorted_equivalence hsorts₁ hsorts₂ hunmarked₁ hunmarked₂
    have hleft := Script.wellSorted_equivalence hsorts₁' hsorts₂' hunmarked₁' hunmarked₂'
    exact ⟨hplain, hleft.isSat_iff.trans hcompared,
      fun hf hg => hleft.isSat_congr hplain (hsame hf hg)⟩

end Program

/-- One more than an input, which is asserted to be positive. -/
def oneMore : Program where
  statements :=
    [.assign {} { target := "x", value := .binary (.arith .add) (.var "n") (.lit 1) },
      .check {} (.binary (.cmp .gt) (.var "x") (.lit 0))]

/-- One less than an input, which is asserted to be positive. -/
def oneLess : Program where
  statements :=
    [.assign {} { target := "x", value := .binary (.arith .sub) (.var "n") (.lit 1) },
      .check {} (.binary (.cmp .gt) (.var "x") (.lit 0))]

/-- The optimizer leaves the outputs of `oneMore` and `oneLess`, and the programs can agree on them
for different inputs. -/
theorem oneMore_oneLess_agree :
    ∃ f g, oneMore.toSsa = .ok f ∧ oneLess.toSsa = .ok g ∧
      Code.outputs (Code.optimize f.code) = Code.outputs f.code ∧
      Code.outputs (Code.optimize g.code) = Code.outputs g.code ∧
      (Script.equivalence (Code.optimize f.code) (Code.optimize g.code)).IsSat
        ⟨fun _ => 0, fun _ => 0⟩ := by
  obtain ⟨f, g, hp, hq, -, -, -, hapart⟩ :=
    Program.equivalence_optimize ⟨fun _ => 0, fun _ => 0⟩ oneMore oneLess
  have hf : oneMore.toSsa = .ok ⟨[.define ⟨"x", 0, none⟩ (.binary (.arith .add)
      (.var ⟨"n", 0, none⟩) (.lit 1)), .check (.binary (.cmp .gt) (.var ⟨"x", 0, none⟩) (.lit 0))],
      _⟩ := rfl
  have hg : oneLess.toSsa = .ok ⟨[.define ⟨"x", 0, none⟩ (.binary (.arith .sub)
      (.var ⟨"n", 0, none⟩) (.lit 1)), .check (.binary (.cmp .gt) (.var ⟨"x", 0, none⟩) (.lit 0))],
      _⟩ := rfl
  rw [hf] at hp
  rw [hg] at hq
  cases hp
  cases hq
  refine ⟨_, _, hf, hg, by decide +kernel, by decide +kernel, ?_⟩
  obtain ⟨hsorted, -, hsame⟩ := hapart (by decide) (by decide)
  refine (hsame (by decide +kernel) (by decide +kernel)).mpr ⟨hsorted, ?_⟩
  -- from one and from three, both programs get two
  obtain ⟨m, hm⟩ := Valuation.exists_pair ⟨fun _ => 0, fun _ _ => 0⟩
    (fun v => if v.base = "n" then 1 else 2) fun v => if v.base = "n" then 3 else 2
  obtain ⟨hx, -, hx', -⟩ := hm ⟨"x", 0, none⟩ rfl
  obtain ⟨hn, -, hn', -⟩ := hm ⟨"n", 0, none⟩ rfl
  refine ⟨m, ?_⟩
  rw [Script.holds_equivalence_iff, Script.holds_verification_iff, Script.holds_verification_iff,
    Code.satisfied_mark, Code.outputs_mark]
  simp [Code.Satisfied, Code.Solved, Code.Passed, Instr.Solved, Instr.Passed, Expr.eval,
    Meaning.integers, Meaning.comap, BinOp.value, Arith.value, Cmp.holds, truthValue, Code.outputs,
    Code.setOutput, hx, hn, hx', hn']

/-- One assignment, which is the first one of `assignXY`. -/
def assignX : Program where
  statements := [.assign {} { target := "x", value := .lit 1 }]

/-- Programs with different numbers of outputs are told apart, but not when they are optimized: the
optimizer drops the outputs, which nobody reads. -/
theorem Program.equivalence_forgets_outputs :
    assignXY.arraysApart = true ∧ assignX.arraysApart = true ∧
    ∃ f g, assignXY.toSsa = .ok f ∧ assignX.toSsa = .ok g ∧
      (Script.equivalence f.code g.code).mismatch = some (2, 1) ∧
      ¬ (Script.equivalence f.code g.code).Satisfiable ⟨fun _ => 0, fun _ => 0⟩ ∧
      (Script.equivalence (Code.optimize f.code) (Code.optimize g.code)).mismatch = none ∧
      (Script.equivalence (Code.optimize f.code) (Code.optimize g.code)).IsSat
        ⟨fun _ => 0, fun _ => 0⟩ := by
  refine ⟨by decide, by decide,
    ⟨[.define ⟨"x", 0, none⟩ (.lit 1), .define ⟨"y", 0, none⟩ (.lit 2)], _⟩,
    ⟨[.define ⟨"x", 0, none⟩ (.lit 1)], _⟩, rfl, rfl, by decide, ?_, ?_⟩
  · rintro ⟨m, hm⟩
    exact absurd (Script.holds_equivalence_iff.mp hm).2.2.length_eq (by decide)
  · dsimp only
    have hleft : Code.optimize [.define ⟨"x", 0, none⟩ (.lit 1), .define ⟨"y", 0, none⟩ (.lit 2)] =
        [] := by decide +kernel
    have hright : Code.optimize [.define ⟨"x", 0, none⟩ (.lit 1)] = [] := by decide +kernel
    have hsorted := @Script.wellSorted_equivalence [] [] (by decide) (by decide) (by decide)
      (by decide)
    rw [hleft, hright]
    exact ⟨by decide, hsorted, ⟨fun _ => 0, fun _ _ => 0⟩,
      fun _ hmem => absurd hmem List.not_mem_nil⟩

end WhileSmt
