import WhileSmt.Proofs.Integers
import WhileSmt.Proofs.Ssa.Simulation

/-!
Programs and their single-assignment form. The code of a program over-approximates its runs: every
terminating run is one of its solutions, whatever the values are and however often its loops run.

Main statement: the solution of a run holds the inputs of the run, its final store, and the values
that the conditions of the assertions had (`Program.run_solved`).
-/

namespace WhileSmt

universe u

variable {δ : Type u}

open Scope

namespace Block

/-- The rules give one result. -/
theorem Numbers.unique {b : Block} {s s₁ s₂ : Scope} {c₁ c₂ : Code} (h₁ : Numbers b s c₁ s₁)
    (h₂ : Numbers b s c₂ s₂) (hv : s.Valid) : c₁ = c₂ ∧ s₁ = s₂ := by
  have h := (h₁.number_eq hv).symm.trans (h₂.number_eq hv)
  cases h
  exact ⟨rfl, rfl⟩

/-- Wherever a block is cut in two, the versions in force there hold the values of the store there,
unless they are defined after that place. -/
def Tracked (M : Meaning String δ) (r : Version → δ) (b : Block) (s : Scope) (σ : Store δ) : Prop :=
  ∀ (b₁ b₂ : Block) (c₁ c₂ : Code) (s₁ s₂ : Scope) (vs : List δ) (σ₁ : Store δ), b = b₁ ++ b₂ →
    Numbers b₁ s c₁ s₁ → Numbers b₂ s₁ c₂ s₂ → Run M b₁ σ vs σ₁ →
    ∀ x, s₁.current x ∉ Code.defined c₂ → r (s₁.current x) = σ₁ x

theorem Tracked.cons {M : Meaning String δ} {r : Version → δ} {stmt : Stmt} {rest : Block}
    {s s₁ : Scope} {c₁ : Code} {σ σ₁ : Store δ} {vs₁ : List δ} (hv : s.Valid)
    (h₁ : Numbers [stmt] s c₁ s₁) (hrun₁ : Run M [stmt] σ vs₁ σ₁)
    (hfirst : ∀ c₂ s₂, Numbers (stmt :: rest) s c₂ s₂ →
      ∀ x, s.current x ∉ Code.defined c₂ → r (s.current x) = σ x)
    (hrest : Tracked M r rest s₁ σ₁) : Tracked M r (stmt :: rest) s σ := by
  intro b₁ b₂ d₁ d₂ t₁ t₂ vs τ hb hnum₁ hnum₂ hrun x hx
  cases b₁ with
  | nil =>
    cases hnum₁
    cases hrun
    rw [List.nil_append] at hb
    subst hb
    exact hfirst d₂ t₂ hnum₂ x hx
  | cons stmt' b₁ =>
    obtain ⟨rfl, rfl⟩ := List.cons.inj hb
    have hnum₁ : Numbers ([stmt] ++ b₁) s d₁ t₁ := hnum₁
    have hrun : Run M ([stmt] ++ b₁) σ vs τ := hrun
    obtain ⟨_, _, d, h₁', hnum, rfl⟩ := hnum₁.split
    obtain ⟨_, _, ws, hrun₁', hrun, rfl⟩ := hrun.split
    obtain ⟨rfl, rfl⟩ := h₁.unique h₁' hv
    obtain ⟨rfl, rfl⟩ := hrun₁.unique hrun₁'
    exact hrest b₁ b₂ d d₂ t₁ t₂ ws τ rfl hnum hnum₂ hrun x hx

/-- A run of a prepared block has a solution that matches it after every statement. -/
theorem Numbers.exists_tracked {M : Meaning String δ} {b : Block} {s s' : Scope} {code : Code}
    (h : Numbers b s code s') (hv : s.Valid) (hprep : prepared b s = true) {σ σ' : Store δ}
    {vs : List δ} (hrun : Run M b σ vs σ') {r : Version → δ} (hr : ∀ x, r (s.current x) = σ x) :
    ∃ r', Code.Solved M.versions r' code ∧ (∀ v, v ∉ Code.defined code → r' v = r v) ∧
      (∀ x, r' (s'.current x) = σ' x) ∧ Tracked M r' b s σ := by
  induction b generalizing s code σ vs r with
  | nil =>
    cases h
    cases hrun
    refine ⟨r, Code.solved_nil _ r, fun _ _ => rfl, hr, ?_⟩
    intro b₁ b₂ c₁ c₂ s₁ s₂ vs σ₁ hb h₁ h₂ hrun x hx
    obtain ⟨rfl, rfl⟩ := List.append_eq_nil_iff.mp hb.symm
    cases h₁
    cases hrun
    exact hr x
  | cons stmt rest ih =>
    have hnum : Numbers ([stmt] ++ rest) s code s' := h
    have hrun' : Run M ([stmt] ++ rest) σ vs σ' := hrun
    have hprep' : prepared ([stmt] ++ rest) s = true := hprep
    obtain ⟨c₁, s₁, c₂, h₁, h₂, rfl⟩ := hnum.split
    obtain ⟨σ₁, vs₁, vs₂, hrun₁, hrun₂, rfl⟩ := hrun'.split
    obtain ⟨hprep₁, hprep₂⟩ := prepared_of_append hprep' hv h₁
    have hstep₁ := h₁.step hv
    -- the first statement is solved by its run, and the rest from the values that it leaves
    obtain ⟨ws, htrav₁⟩ := hrun₁.exists_traversal
    obtain ⟨r₁, hsolved₁, -, hkeep₁, hmatch₁⟩ := h₁.simulates hv hprep₁ htrav₁ r hr
    obtain ⟨r₂, hsolved₂, hkeep₂, hmatch₂, htracked⟩ :=
      ih h₂ hstep₁.valid hprep₂ hrun₂ hmatch₁
    have hkeep : ∀ v, v ∉ Code.defined (c₁ ++ c₂) → r₂ v = r v := by
      intro v hv
      rw [Code.defined_append, List.mem_append, not_or] at hv
      rw [hkeep₂ v hv.2, hkeep₁ v hv.1]
    refine ⟨r₂, ?_, hkeep, hmatch₂, .cons hv h₁ hrun₁ ?_ htracked⟩
    · exact Code.solved_append.mpr
        ⟨hsolved₁.later hstep₁.within (h₂.step hstep₁.valid).within hkeep₂, hsolved₂⟩
    · intro c s₂ hc x hx
      obtain ⟨rfl, rfl⟩ := h.unique hc hv
      rw [hkeep _ hx, hr x]

/-- Where a run that is matched throughout meets an assertion, the condition has the same value in
the code. -/
theorem Tracked.check {M : Meaning String δ} {r : Version → δ} {b₁ b₂ : Block} {span : Span}
    {cond : Expr String} {s s₁ s' : Scope} {c₁ c₂ : Code} {σ σ₁ : Store δ} {vs : List δ}
    (h : Tracked M r (b₁ ++ .check span cond :: b₂) s σ) (hv : s.Valid) (h₁ : Numbers b₁ s c₁ s₁)
    (h₂ : Numbers (.check span cond :: b₂) s₁ c₂ s') (hrun : Run M b₁ σ vs σ₁) :
    ∃ lowered more, c₂ = .check lowered :: more ∧
      lowered.eval M.versions r = cond.eval M σ₁ := by
  have hmatch := h _ _ _ _ _ _ _ _ rfl h₁ h₂ hrun
  cases h₂ with
  | @check _ _ _ _ s₂ _ more hclaim hrest =>
    have hclaims := claims_of_claim hclaim
    have hv₂ := hclaims.valid (h₁.step hv).valid
    refine ⟨_, more, rfl, ?_⟩
    rw [resolve, Expr.eval_map M r s₂.current (base_current s₂)]
    refine Expr.eval_congr ?_
    intro x hx
    -- a name that the condition reads is known by now, so its version is not defined later
    have hknown : s₂.env.get? x ≠ none := hclaims.env_ne_none.mpr (.inr hx)
    have hnot := (hrest.step hv₂).within.not_defined ⟨rfl, hv₂.current_lt hknown⟩
    rw [hclaims.current_eq] at hnot ⊢
    exact hmatch x (by simpa [Code.defined, Instr.defined?] using hnot)

end Block

/-- Every terminating run of a prepared program is a solution of its single-assignment form. The
solution holds the store at the start in the inputs, the store at the end in the final versions, and
gives the condition of every assertion outside of branches and loops the value it had in the run. -/
theorem Program.run_solved {M : Meaning String δ} {p : Program} {σ σ' : Store δ} {vs : List δ}
    (hprep : p.prepared = true) (hrun : Block.Run M p.statements σ vs σ') :
    ∃ (f : SsaForm) (r : Version → δ), p.toSsa = .ok f ∧ Code.Solved M.versions r f.code ∧
      (∀ x, { base := x, number := 0 } ∉ Code.defined f.code →
        r { base := x, number := 0 } = σ x) ∧
      (∀ x v, f.finals.get? x = some v → r v = σ' x) ∧
      ∀ before span cond after, p.statements = before ++ .check span cond :: after →
        ∃ code s lowered more vs₁ σ₁ vs₂, Block.number before {} = .ok (code, s) ∧
          f.code = code ++ .check lowered :: more ∧ Block.Run M before σ vs₁ σ₁ ∧
          Block.Run M after σ₁ vs₂ σ' ∧ vs = vs₁ ++ cond.eval M σ₁ :: vs₂ ∧
          lowered.eval M.versions r = cond.eval M σ₁ := by
  obtain ⟨code, s, h, hssa⟩ := p.exists_toSsa
  obtain ⟨r, hsolved, hkeep, hmatch, htracked⟩ :=
    h.exists_tracked (r := fun v => σ v.base) valid_empty hprep hrun fun _ => rfl
  refine ⟨_, r, hssa, hsolved, fun x hx => hkeep _ hx, ?_, ?_⟩
  · intro x v hx
    rw [NameMap.get?_mapValues] at hx
    obtain ⟨n, hn, rfl⟩ := Option.map_eq_some_iff.mp hx
    rw [← hmatch x, current_of_get? hn]
  · -- cut the program, its code and its run at the assertion
    intro before span cond after hp
    rw [hp] at h hrun htracked
    obtain ⟨c₁, s₁, c₂, h₁, h₂, rfl⟩ := h.split
    obtain ⟨σ₁, vs₁, vs₂, hrun₁, hrun₂, rfl⟩ := hrun.split
    obtain ⟨lowered, more, rfl, hval⟩ := htracked.check valid_empty h₁ h₂ hrun₁
    cases hrun₂ with
    | check hrun₂ =>
      exact ⟨c₁, s₁, lowered, more, vs₁, σ₁, _, h₁.number_eq valid_empty, rfl, hrun₁, hrun₂, rfl,
        hval⟩

/-- A loop that counts to two, and an assertion after it. -/
def countToTwo : Program where
  statements :=
    [.assign {} { target := "i", value := .lit 0 },
      .whileDo {} (.binary (.cmp .lt) (.var "i") (.lit 2))
        [.assign {} { target := "i", value := .binary (.arith .add) (.var "i") (.lit 1) }],
      .check {} (.binary (.cmp .eq) (.var "i") (.lit 2))]

/-- In the solution for the run of `countToTwo`, the name holds two at the end. -/
theorem countToTwo_solved :
    ∃ (f : SsaForm) (r : Version → Int), countToTwo.toSsa = .ok f ∧
      Code.Solved (Meaning.integers ⟨id, id⟩ fun _ _ _ => 0).versions r f.code ∧
      ∀ v, f.finals.get? "i" = some v → r v = 2 := by
  have hrun : Block.Run (Meaning.integers ⟨id, id⟩ fun _ _ _ => 0) countToTwo.statements
      (fun _ => 7) _ _ :=
    .assign (.whileTrue rfl (.assign (.nil _)) (.whileTrue rfl (.assign (.nil _))
      (.whileFalse rfl (.check (.nil _)))))
  obtain ⟨f, r, hssa, hsolved, -, hfinal, -⟩ :=
    Program.run_solved (p := countToTwo) (by decide) hrun
  exact ⟨f, r, hssa, hsolved, fun v hv => hfinal "i" v hv⟩

end WhileSmt
