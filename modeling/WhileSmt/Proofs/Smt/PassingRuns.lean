import WhileSmt.Proofs.Smt.SortsApart
import WhileSmt.Proofs.Ssa.LoopFree

/-!
Verification of programs with assertions at any depth. The script of a program states all of its
assertions, also those in arms and bodies that a run does not enter. So it is satisfiable if and
only if all of them hold in some traversal of the program, and a run in which all assertions hold
makes the script satisfiable if the assertions can hold that the run leaves out.

Main statement: `Program.verification_of_run`. That the condition is needed is
`Program.unsatisfiable_despite_run`.
-/

namespace WhileSmt

universe u

open Scope

namespace Block

variable {δ : Type u}

/-- A traversal of a block without assertions lists no values. -/
theorem Traversal.values_eq_nil {M : Meaning String δ} {b : Block} {σ σ' : Store δ} {vs : List δ}
    (h : Traversal M b σ vs σ') (hnone : (counts b).assertions = 0) : vs = [] := by
  induction h with
  | nil σ => rfl
  | assign _ ih =>
    simp only [counts, Stmt.counts, Counts.assertions_add, Nat.zero_add] at hnone
    exact ih hnone
  | check _ ih =>
    simp only [counts, Stmt.counts, Counts.assertions_add] at hnone
    omega
  | ifElse _ _ _ iht ihe ihrest =>
    simp only [counts, Stmt.counts, Counts.assertions_add, Nat.zero_add] at hnone
    rw [iht (by omega), ihe (by omega), ihrest (by omega)]
    rfl
  | whileDo _ _ _ ihbody ihrest =>
    simp only [counts, Stmt.counts, Counts.assertions_add, Nat.zero_add] at hnone
    rw [ihbody (by omega), ihrest (by omega)]
    rfl
  | forDo _ ih =>
    rw [counts_forDo] at hnone
    exact ih hnone

/-- Where there are no assertions, none can fail. -/
theorem passable_of_assertions (M : Meaning String δ) {b : Block}
    (hnone : (counts b).assertions = 0) (σ : Store δ) : Passable M b σ := by
  obtain ⟨vs, σ', htrav⟩ := exists_traversal M b σ
  refine ⟨vs, σ', htrav, ?_⟩
  rw [htrav.values_eq_nil hnone]
  simp

end Block

namespace Program

variable {z : ZeroDivision} {p : Program} {code : Code} {s : Scope}

/-- Values that satisfy the code of a program are a model of its script, since different versions
have different texts. -/
theorem satisfiable_of_satisfied (hnum : Block.Numbers p.statements {} code s)
    {arrays : String → Int → Int} {r : Version → Int}
    (h : Code.Satisfied (Meaning.integers z fun a _ => arrays a).versions r code) :
    (Script.verification code).Satisfiable z := by
  have htext : ∀ v w : Version, v.marker = none → w.marker = none → v.text = w.text →
      r v = r w ∧ arrays v.base = arrays w.base := by
    intro v w hv hw heq
    rw [Version.eq_of_text_eq hv hw heq]
    exact ⟨rfl, rfl⟩
  obtain ⟨m, hm⟩ := Valuation.exists_of_versions htext
  have hwithin := (hnum.step valid_empty).within
  have huses : ∀ v ∈ Code.uses code, v.marker = none := fun v hv => (hwithin.uses v hv).1
  refine ⟨m, (Script.holds_verification ?_ ?_ ?_).mpr h⟩
  · exact fun v hv => (hm v (hwithin.defined v hv).1.1).1
  · exact fun v hv => (hm v (huses v hv)).1
  · exact fun a ha => (hm a (huses a (Code.uses_of_arrays ha))).2

/-- A traversal in which all assertions hold makes the script satisfiable. -/
theorem satisfiable_of_traversal (hnum : Block.Numbers p.statements {} code s)
    (hprep : p.prepared = true) {arrays : String → Int → Int} {σ σ' : Store Int} {vs : List Int}
    (htrav : Block.Traversal (Meaning.integers z fun a _ => arrays a) p.statements σ vs σ')
    (hvs : ∀ d ∈ vs, d ≠ 0) : (Script.verification code).Satisfiable z := by
  obtain ⟨r, hsolved, hpassed, -, -⟩ :=
    hnum.simulates valid_empty hprep htrav (fun v => σ v.base) fun _ => rfl
  refine satisfiable_of_satisfied hnum ⟨hsolved, hpassed.mpr ?_⟩
  intro d hd
  simpa using hvs d hd

/-- A model of the script of a program whose arrays are inputs is a traversal in which all
assertions hold. -/
theorem exists_traversal_of_satisfiable (hnum : Block.Numbers p.statements {} code s)
    (hprep : p.prepared = true) (hapart : p.arraysApart = true)
    (h : (Script.verification code).Satisfiable z) :
    ∃ (arrays : String → Int → Int) (σ σ' : Store Int) (vs : List Int),
      Block.Traversal (Meaning.integers z fun a _ => arrays a) p.statements σ vs σ' ∧
        ∀ d ∈ vs, d ≠ 0 := by
  obtain ⟨m, hm⟩ := h
  let arrays : String → Int → Int := fun a => m.arrays (Version.text { base := a, number := 0 })
  have harrays : ∀ a ∈ Code.arrays code, m.arrays a.text = arrays a.base := fun a ha =>
    congrArg (fun v : Version => m.arrays v.text) (array_input hnum hapart ha)
  obtain ⟨hsolved, hpassed⟩ :=
    (Script.holds_verification (fun _ _ => rfl) (fun _ _ => rfl) harrays).mp hm
  obtain ⟨vs, htrav, hiff⟩ := hnum.exists_traversal
    (M := Meaning.integers z fun a _ => arrays a) valid_empty hprep hsolved
  refine ⟨arrays, _, _, vs, htrav, ?_⟩
  intro d hd
  simpa using hiff.mp hpassed d hd

/-- The script of a program whose branches and loops assign only known names is satisfiable if the
program has a run in which every assertion holds and the assertions can hold that the run leaves
out. If arrays are kept apart from other names, the script is well-sorted, and it is satisfiable if
and only if all assertions hold in some traversal. -/
theorem verification_of_run (z : ZeroDivision) {p : Program} (hprep : p.prepared = true) :
    ∃ f, p.toSsa = .ok f ∧
      (∀ (arrays : String → Int → Int) (σ σ' : Store Int) (vs : List Int),
        Block.Run (Meaning.integers z fun a _ => arrays a) p.statements σ vs σ' →
        (∀ d ∈ vs, d ≠ 0) →
        Block.Clear (Meaning.integers z fun a _ => arrays a) p.statements σ →
        (Script.verification f.code).Satisfiable z) ∧
      (p.arraysApart = true → (Script.verification f.code).WellSorted ∧
        ((Script.verification f.code).Satisfiable z ↔
          ∃ (arrays : String → Int → Int) (σ σ' : Store Int) (vs : List Int),
            Block.Traversal (Meaning.integers z fun a _ => arrays a) p.statements σ vs σ' ∧
              ∀ d ∈ vs, d ≠ 0)) := by
  obtain ⟨code, s, hnum, hssa⟩ := p.exists_toSsa
  refine ⟨_, hssa, ?_, ?_⟩
  · intro arrays σ σ' vs hrun hvs hclear
    have htrue : ∀ d ∈ vs, (Meaning.integers z fun a _ => arrays a).truth d = true := by
      intro d hd
      simpa using hvs d hd
    obtain ⟨ws, htrav, hws⟩ := hrun.exists_passing htrue hclear
    refine satisfiable_of_traversal hnum hprep htrav ?_
    intro d hd
    simpa using hws d hd
  · intro hapart
    refine ⟨Script.wellSorted_verification (oneSorted hnum hapart),
      exists_traversal_of_satisfiable hnum hprep hapart, ?_⟩
    rintro ⟨arrays, σ, σ', vs, htrav, hvs⟩
    exact satisfiable_of_traversal hnum hprep htrav hvs

end Program

/-- A loop with an assertion in its body, and two branches: one arm that is passed by has no
assertion, and the other one has an assertion that can hold. -/
def countDown : Program where
  statements :=
    [.assign {} { target := "x", value := .lit 2 },
      .whileDo {} (.binary (.cmp .gt) (.var "x") (.lit 0))
        [.assign {} { target := "x", value := .binary (.arith .sub) (.var "x") (.lit 1) },
          .check {} (.binary (.cmp .ge) (.var "x") (.lit 0))],
      .ifElse {} (.binary (.cmp .eq) (.var "x") (.lit 0))
        [.check {} (.binary (.cmp .lt) (.var "x") (.lit 1))]
        [.assign {} { target := "x", value := .lit 5 }],
      .ifElse {} (.binary (.cmp .gt) (.var "x") (.lit 3))
        [.check {} (.binary (.cmp .lt) (.var "x") (.lit 7))] []]

/-- The run of `countDown` goes twice through its loop and takes one arm of each branch. -/
theorem countDown_satisfiable :
    ∃ f, countDown.toSsa = .ok f ∧
      (Script.verification f.code).Satisfiable ⟨fun _ => 0, fun _ => 0⟩ := by
  obtain ⟨f, hssa, hsat, -⟩ :=
    Program.verification_of_run (p := countDown) ⟨fun _ => 0, fun _ => 0⟩ (by decide)
  have hrun : Block.Run (Meaning.integers ⟨fun _ => 0, fun _ => 0⟩ fun _ _ _ => 0)
      countDown.statements (fun _ => 0) _ _ :=
    .assign (.whileTrue rfl (.assign (.check (.nil _)))
      (.whileTrue rfl (.assign (.check (.nil _)))
        (.whileFalse rfl (.ifTrue rfl (.check (.nil _)) (.ifFalse rfl (.nil _) (.nil _))))))
  have hclear : Block.Clear (Meaning.integers ⟨fun _ => 0, fun _ => 0⟩ fun _ _ _ => 0)
      countDown.statements fun _ => 0 := by
    refine .assign (.whileNext rfl (.assign (.check (.nil _))) rfl
      (.whileLast rfl (.assign (.check (.nil _))) (.assign (.check (.nil _))) rfl
        (.ifTrue rfl (Block.passable_of_assertions _ rfl _) (.check (.nil _)) (.check (.nil _))
          (.ifFalse rfl ?_ (.nil _) (.nil _) (.nil _)))))
    exact ⟨_, _, .check (.nil _), by decide⟩
  exact ⟨f, hssa, hsat (fun _ _ => 0) _ _ _ hrun (by decide) hclear⟩

/-- An assertion that fails, in an arm that no run enters. -/
def unreachedFailure : Program where
  statements := [.ifElse {} (.lit 0) [.check {} (.lit 0)] []]

/-- The assertion of `unreachedFailure` makes its script unsatisfiable, although the program has a
run that meets no assertion. -/
theorem Program.unsatisfiable_despite_run :
    unreachedFailure.prepared = true ∧
      Block.Run (Meaning.integers ⟨fun _ => 0, fun _ => 0⟩ fun _ _ _ => 0)
        unreachedFailure.statements (fun _ => 0) [] (fun _ => 0) ∧
      ∃ f, unreachedFailure.toSsa = .ok f ∧
        ¬ (Script.verification f.code).Satisfiable ⟨fun _ => 0, fun _ => 0⟩ := by
  refine ⟨by decide, .ifFalse rfl (.nil _) (.nil _), ⟨[.check (.lit 0)], _⟩, rfl, ?_⟩
  rintro ⟨m, hm⟩
  rw [Script.holds_verification_iff] at hm
  have hpassed := hm.2 (.check (.lit 0)) List.mem_cons_self
  exact absurd hpassed Bool.false_ne_true

end WhileSmt
