import WhileSmt.Proofs.Ssa.Execution
import WhileSmt.Proofs.Ssa.WellFormed

/-!
Programs without loops. Their runs always end, and the equations of their code have exactly one
solution for every choice of the inputs. So runs and solutions correspond, and if all assertions
stand outside of branches, the assertions of the code hold if and only if those of the run do.

Main statements: every solution is the solution of a run (`Block.Numbers.exists_run_tracked`), and
what the assertions of the code say of it (`Block.Tracked.passed_iff`).
-/

namespace WhileSmt

universe u

variable {δ : Type u}

/-- All joins where two paths meet have a guard. -/
theorem Scope.Meets.unguarded_eq_nil {guard : Expr Version} {one : NameMap Nat} {s s' : Scope}
    {code : Code} (h : Meets guard one s code s') : Code.unguarded code = [] := by
  apply List.eq_nil_iff_forall_not_mem.mpr
  intro v hv
  obtain ⟨operands, hmem⟩ := Code.mem_unguarded.mp hv
  obtain ⟨x, a, b, -, -, -, heq⟩ := h.mem_code.mp hmem
  cases heq

open Scope

namespace Block

/-! ## Runs and solutions -/

/-- Without loops every block runs to its end. -/
theorem exists_run (M : Meaning String δ) {b : Block} (hloops : (counts b).loops = 0)
    (σ : Store δ) : ∃ vs σ', Run M b σ vs σ' := by
  induction b using inductionOn generalizing σ with
  | nil => exact ⟨[], σ, .nil σ⟩
  | assign span a rest ih =>
    simp only [counts, Stmt.counts, Counts.loops_add, Nat.zero_add] at hloops
    obtain ⟨vs, σ', hrest⟩ := ih hloops (a.run M σ)
    exact ⟨vs, σ', .assign hrest⟩
  | check span cond rest ih =>
    simp only [counts, Stmt.counts, Counts.loops_add, Nat.zero_add] at hloops
    obtain ⟨vs, σ', hrest⟩ := ih hloops σ
    exact ⟨_, σ', .check hrest⟩
  | ifElse span cond t e rest iht ihe ihrest =>
    simp only [counts, Stmt.counts, Counts.loops_add, Nat.zero_add] at hloops
    cases hc : M.truth (cond.eval M σ) with
    | true =>
      obtain ⟨vs₁, σ₁, ht⟩ := iht (by omega) σ
      obtain ⟨vs₂, σ', hrest⟩ := ihrest (by omega) σ₁
      exact ⟨_, σ', .ifTrue hc ht hrest⟩
    | false =>
      obtain ⟨vs₁, σ₁, he⟩ := ihe (by omega) σ
      obtain ⟨vs₂, σ', hrest⟩ := ihrest (by omega) σ₁
      exact ⟨_, σ', .ifFalse hc he hrest⟩
  | whileDo span cond body rest =>
    simp only [counts, Stmt.counts, Counts.loops_add] at hloops
    omega
  | forDo span init cond update body rest =>
    simp only [counts, Stmt.counts, Counts.loops_add] at hloops
    omega

/-- Without loops every join has a guard. -/
theorem Numbers.unguarded_eq_nil {b : Block} {s s' : Scope} {code : Code}
    (h : Numbers b s code s') (hloops : (counts b).loops = 0) : Code.unguarded code = [] := by
  induction h with
  | nil s => rfl
  | assign _ _ ih =>
    simp only [counts, Stmt.counts, Counts.loops_add, Nat.zero_add] at hloops
    exact ih hloops
  | check _ _ ih =>
    simp only [counts, Stmt.counts, Counts.loops_add, Nat.zero_add] at hloops
    exact ih hloops
  | ifElse _ _ _ hjoin _ iht ihe ihrest =>
    simp only [counts, Stmt.counts, Counts.loops_add, Nat.zero_add] at hloops
    have hjoins := (meets_of_joinArms hjoin).unguarded_eq_nil
    simp only [Code.unguarded_append, iht (by omega), ihe (by omega), hjoins, ihrest (by omega),
      List.append_nil]
  | whileDo =>
    simp only [counts, Stmt.counts, Counts.loops_add] at hloops
    omega
  | forDo =>
    simp only [counts, Stmt.counts, Counts.loops_add] at hloops
    omega

/-- Without loops, a solution of the code is the solution of the run from the inputs that it
holds. -/
theorem Numbers.exists_run_tracked {M : Meaning String δ} {b : Block} {s s' : Scope} {code : Code}
    (h : Numbers b s code s') (hv : s.Valid) (hprep : prepared b s = true)
    (hloops : (counts b).loops = 0) {r : Version → δ} (hsolved : Code.Solved M.versions r code) :
    ∃ vs σ', Run M b (fun x => r (s.current x)) vs σ' ∧
      Tracked M r b s fun x => r (s.current x) := by
  obtain ⟨vs, σ', hrun⟩ := exists_run M hloops fun x => r (s.current x)
  obtain ⟨r', hsolved', hkeep, -, htracked⟩ := h.exists_tracked hv hprep hrun fun _ => rfl
  have hstep := h.step hv
  -- the run has a solution as well, and there is only one for its inputs
  have hsame : r' = r := by
    refine hstep.within.acyclic.unique hsolved' hsolved ?_
    intro v hfree
    refine hkeep v ?_
    intro hmem
    rcases Code.bound_or_unguarded hstep.paired hmem with hbound | hcarried
    · exact hfree hbound
    · rw [h.unguarded_eq_nil hloops] at hcarried
      cases hcarried
  subst hsame
  exact ⟨vs, σ', hrun, htracked⟩

/-! ## Assertions -/

/-- All assertions of a block stand outside of its branches and loops. -/
def checksOutside (b : Block) : Bool :=
  b.all fun
    | .check .. => true
    | stmt => stmt.counts.assertions = 0

/-- A run of a block without assertions lists no values. -/
theorem Run.values_eq_nil {M : Meaning String δ} {b : Block} {σ σ' : Store δ} {vs : List δ}
    (h : Run M b σ vs σ') (hnone : (counts b).assertions = 0) : vs = [] := by
  induction h with
  | nil σ => rfl
  | assign _ ih =>
    simp only [counts, Stmt.counts, Counts.assertions_add, Nat.zero_add] at hnone
    exact ih hnone
  | check _ ih =>
    simp only [counts, Stmt.counts, Counts.assertions_add] at hnone
    omega
  | ifTrue _ _ _ ih₁ ih₂ =>
    simp only [counts, Stmt.counts, Counts.assertions_add, Nat.zero_add] at hnone
    rw [ih₁ (by omega), ih₂ (by omega), List.append_nil]
  | ifFalse _ _ _ ih₁ ih₂ =>
    simp only [counts, Stmt.counts, Counts.assertions_add, Nat.zero_add] at hnone
    rw [ih₁ (by omega), ih₂ (by omega), List.append_nil]
  | whileFalse _ _ ih =>
    simp only [counts, Counts.assertions_add] at hnone
    exact ih (by omega)
  | whileTrue _ _ _ ihbody ihloop =>
    have hbody := hnone
    simp only [counts, Stmt.counts, Counts.assertions_add, Nat.zero_add] at hbody
    rw [ihbody (by omega), ihloop hnone, List.append_nil]
  | forDo _ ih =>
    rw [counts_forDo] at hnone
    exact ih hnone

/-- The code of a block without assertions has none. -/
theorem Numbers.passed {b : Block} {s s' : Scope} {code : Code} (h : Numbers b s code s')
    (hv : s.Valid) (hnone : (counts b).assertions = 0) (M : Meaning Version δ)
    (r : Version → δ) : Code.Passed M r code := by
  induction h with
  | nil s =>
    intro instr hmem
    cases hmem
  | assign hclaim _ ih =>
    simp only [counts, Stmt.counts, Counts.assertions_add, Nat.zero_add] at hnone
    exact Code.passed_cons.mpr
      ⟨trivial, ih (((claims_of_claim hclaim).valid hv).advance _) hnone⟩
  | check _ _ ih =>
    simp only [counts, Stmt.counts, Counts.assertions_add] at hnone
    omega
  | ifElse hclaim ht he hjoin hrest iht ihe ihrest =>
    simp only [counts, Stmt.counts, Counts.assertions_add, Nat.zero_add] at hnone
    have hbranch := Branch.of_claim hv hclaim ht.step he.step hjoin
    simp only [Code.passed_append]
    exact ⟨⟨⟨iht hbranch.valid (by omega), ihe hbranch.elseValid (by omega)⟩,
      hbranch.meets.passed M r⟩, ihrest hbranch.step.valid (by omega)⟩
  | @whileDo span cond body rest s s₁ after final s' code exits more hclaim hbody hexit hrest ihbody
      ihrest =>
    simp only [counts, Stmt.counts, Counts.assertions_add, Nat.zero_add] at hnone
    have hloop := Loop.of_claim hv hclaim hbody.step hexit
    simp only [Code.passed_append]
    exact ⟨⟨⟨ihbody (hloop.valid.advanceAll _) (by omega), Simulates.passed_entryCode M r _ _ _⟩,
      hloop.meets.passed M r⟩, ihrest hloop.step.valid (by omega)⟩
  | forDo _ ih =>
    rw [counts_forDo] at hnone
    exact ih hv hnone

/-- What is matched throughout a block is matched throughout the rest of it. -/
theorem Tracked.tail {M : Meaning String δ} {r : Version → δ} {stmt : Stmt} {rest : Block}
    {s s₁ : Scope} {c₁ : Code} {σ σ₁ : Store δ} {vs₁ : List δ}
    (h : Tracked M r (stmt :: rest) s σ) (h₁ : Numbers [stmt] s c₁ s₁)
    (hrun₁ : Run M [stmt] σ vs₁ σ₁) : Tracked M r rest s₁ σ₁ := by
  intro b₁ b₂ d₁ d₂ t₁ t₂ vs τ hb hnum₁ hnum₂ hrun x hx
  subst hb
  exact h ([stmt] ++ b₁) b₂ (c₁ ++ d₁) d₂ t₁ t₂ (vs₁ ++ vs) τ rfl (h₁.append hnum₁) hnum₂
    (hrun₁.append hrun) x hx

/-- If all assertions stand outside of branches, those of the code hold in a solution if and only if
all conditions that the run has met were true. -/
theorem Tracked.passed_iff {M : Meaning String δ} {r : Version → δ} {b : Block} {s s' : Scope}
    {code : Code} {σ σ' : Store δ} {vs : List δ} (h : Tracked M r b s σ)
    (hnum : Numbers b s code s') (hv : s.Valid) (hrun : Run M b σ vs σ')
    (houtside : checksOutside b = true) :
    Code.Passed M.versions r code ↔ ∀ d ∈ vs, M.truth d = true := by
  induction b generalizing s code σ vs with
  | nil =>
    cases hnum
    cases hrun
    simp [Code.Passed]
  | cons stmt rest ih =>
    have hnum' : Numbers ([stmt] ++ rest) s code s' := hnum
    have hrun' : Run M ([stmt] ++ rest) σ vs σ' := hrun
    obtain ⟨c₁, s₁, c₂, h₁, h₂, rfl⟩ := hnum'.split
    obtain ⟨σ₁, vs₁, vs₂, hrun₁, hrun₂, rfl⟩ := hrun'.split
    have hstep := h₁.step hv
    rw [checksOutside, List.all_cons, Bool.and_eq_true] at houtside
    have hrest := ih (h.tail h₁ hrun₁) h₂ hstep.valid hrun₂ houtside.2
    have hfirst : Code.Passed M.versions r c₁ ↔ ∀ d ∈ vs₁, M.truth d = true := by
      by_cases hcheck : ∃ span cond, stmt = .check span cond
      · obtain ⟨span, cond, rfl⟩ := hcheck
        obtain ⟨lowered, more, hcode, hval⟩ :=
          @Tracked.check _ M r [] rest span cond s s s' [] (c₁ ++ c₂) σ σ [] h hv (.nil s) hnum
            (.nil σ)
        cases h₁ with
        | check hclaim hnil =>
          cases hnil
          cases hrun₁ with
          | check hnil =>
            cases hnil
            obtain ⟨hlowered, -⟩ := List.cons.inj hcode
            cases hlowered
            simp [Code.Passed, Instr.Passed, hval]
      · -- any other statement has no assertion inside it
        have hnone : (counts [stmt]).assertions = 0 := by
          cases stmt with
          | check span cond => exact absurd ⟨span, cond, rfl⟩ hcheck
          | _ => simpa [counts] using houtside.1
        have hvs := hrun₁.values_eq_nil hnone
        subst hvs
        exact iff_of_true (h₁.passed hv hnone _ r) (by simp)
    rw [Code.passed_append, hfirst, hrest, List.forall_mem_append]

end Block

end WhileSmt
