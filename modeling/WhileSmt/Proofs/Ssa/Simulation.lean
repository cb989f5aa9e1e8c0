import WhileSmt.Proofs.Solutions
import WhileSmt.Proofs.Ssa.Prepared
import WhileSmt.Proofs.Traversal

/-!
Traversals and solutions. The code of a block has one copy of every arm and of every body, and it
goes through all of them, as a traversal does. So the solutions of the code of a prepared block are
its traversals: the versions in force hold the values of the store, before the block and after it,
and the assertions of the code hold if and only if those of the traversal do.

Main statements: every traversal of a prepared block is matched by its code
(`Block.Numbers.simulates`), and every solution of its code is that of a traversal
(`Block.Numbers.exists_traversal`).
-/

namespace WhileSmt

universe u

variable {δ : Type u}

/-- What code numbered later defines does not touch a solution of the code before it. -/
theorem Code.Solved.later {M : Meaning Version δ} {r r' : Version → δ} {lo mid hi : String → Nat}
    {c₁ c₂ : Code} (h : Code.Solved M r c₁) (h₁ : Code.Within lo mid c₁)
    (h₂ : Code.Within mid hi c₂) (hkeep : ∀ v, v ∉ Code.defined c₂ → r' v = r v) :
    Code.Solved M r' c₁ := by
  refine h.congr ?_ ?_
  · intro v hv
    exact hkeep v (h₂.not_defined (h₁.uses v hv))
  · intro v hv
    exact hkeep v (h₂.not_defined (h₁.defined v (Code.defined_of_bound hv)).1)

/-- Nor does it touch the assertions. -/
theorem Code.passed_later {M : Meaning Version δ} {r r' : Version → δ} {lo mid hi : String → Nat}
    {c₁ c₂ : Code} (h₁ : Code.Within lo mid c₁) (h₂ : Code.Within mid hi c₂)
    (hkeep : ∀ v, v ∉ Code.defined c₂ → r' v = r v) :
    Code.Passed M r' c₁ ↔ Code.Passed M r c₁ :=
  Code.passed_congr fun v hv => hkeep v (h₂.not_defined (h₁.uses v hv))

/-- Code can be solved by changing nothing but what it defines. -/
theorem Code.Within.exists_solved (M : Meaning Version δ) {lo hi : String → Nat} {code : Code}
    (h : Code.Within lo hi code) (r : Version → δ) :
    ∃ r', Code.Solved M r' code ∧ ∀ v, v ∉ Code.defined code → r' v = r v := by
  obtain ⟨r', hsolved, hkeep⟩ := h.acyclic.exists_solved M r
  exact ⟨r', hsolved, fun v hv => hkeep v fun hb => hv (Code.defined_of_bound hb)⟩

namespace Scope

/-- The code leads from values that match the store `σ` to values that match the store `σ'`: its
equations can be solved by changing nothing but the versions that it defines. Its assertions then
hold if and only if all of the values `vs` are true. -/
def Simulates (M : Meaning String δ) (s : Scope) (code : Code) (s' : Scope) (σ : Store δ)
    (vs : List δ) (σ' : Store δ) : Prop :=
  ∀ r : Version → δ, (∀ x, r (s.current x) = σ x) →
    ∃ r', Code.Solved M.versions r' code ∧
      (Code.Passed M.versions r' code ↔ ∀ d ∈ vs, M.truth d = true) ∧
      (∀ v, v ∉ Code.defined code → r' v = r v) ∧ ∀ x, r' (s'.current x) = σ' x

/-- The value of an expression in the versions in force. -/
theorem eval_resolve (M : Meaning String δ) {s : Scope} {r : Version → δ} {σ : Store δ}
    (hr : ∀ x, r (s.current x) = σ x) (e : Expr String) :
    (s.resolve e).eval M.versions r = e.eval M σ := by
  rw [resolve, Expr.eval_map M r s.current (base_current s)]
  exact Expr.eval_congr fun x _ => hr x

/-- The guard at the exit of a loop is true if the condition is not. -/
theorem truth_not_resolve (M : Meaning String δ) {s : Scope} {r : Version → δ} {σ : Store δ}
    (hr : ∀ x, r (s.current x) = σ x) (e : Expr String) :
    M.truth ((Expr.unary .not (s.resolve e)).eval M.versions r) = !M.truth (e.eval M σ) := by
  rw [← eval_resolve M hr]
  exact M.truth_not _

/-- A piece that writes only known names defines no version in force. -/
theorem Step.current_not_defined {w r : List String} {s s' : Scope} {code : Code}
    (h : Step w r s code s') (hv : s.Valid) (hknown : ∀ x ∈ w, s.env.get? x ≠ none) (x : String) :
    s.current x ∉ Code.defined code := by
  by_cases hx : s.env.get? x = none
  · intro hmem
    exact hknown x (h.targets _ hmem) hx
  · exact h.within.not_defined ⟨rfl, hv.current_lt hx⟩

namespace Meets

variable {guard : Expr Version} {first second joined : Scope} {joins : Code}

/-- The joins where two paths meet are no assertions. -/
theorem passed {one : NameMap Nat} {s s' : Scope} (h : Meets guard one s joins s')
    (M : Meaning Version δ) (r : Version → δ) : Code.Passed M r joins := by
  intro instr hmem
  obtain ⟨x, a, b, -, -, -, rfl⟩ := h.mem_code.mp hmem
  trivial

/-- The joins where two paths meet choose between the values of the paths. -/
theorem current_of_solved {M : Meaning String δ} (hm : Meets guard first.env second joins joined)
    (hdom : ∀ x, first.env.get? x = none ↔ second.env.get? x = none) {r : Version → δ}
    (hsolved : Code.Solved M.versions r joins) (x : String) :
    r (joined.current x) = if M.truth (guard.eval M.versions r) then r (first.current x)
      else r (second.current x) := by
  rcases hm.cases x with ⟨henv, hsome, hsame⟩ | ⟨hnone, henv⟩ | ⟨a, b, ha, hb, hab⟩
  · have hsecond : second.env.get? x = first.env.get? x :=
      hsame.resolve_left fun h => hsome ((hdom x).mpr h)
    rw [current_congr henv, current_congr hsecond, ite_self]
  · have hsecond : second.env.get? x = first.env.get? x := by rw [hnone, (hdom x).mp hnone]
    rw [current_congr henv, current_congr hsecond, ite_self]
  · have hjoin := hsolved _ (hm.mem_code.mpr ⟨x, a, b, ha, hb, hab, rfl⟩)
    rw [current_of_get? (hm.of_ne ha hb hab).1, current_of_get? ha, current_of_get? hb]
    exact hjoin

/-- Joins define no version that is in force on one of the paths. -/
theorem current_not_defined (hm : Meets guard first.env second joins joined) (hv : second.Valid)
    (hone : ∀ x a, first.env.get? x = some a → a < second.nextNumber x) (x : String) :
    first.current x ∉ Code.defined joins ∧ second.current x ∉ Code.defined joins := by
  -- a join is numbered after the versions that it joins, and both paths know them
  have hjoined : ∀ {y : String} {v : Version}, v ∈ Code.defined joins → v.base = y →
      ∃ a b, first.env.get? y = some a ∧ second.env.get? y = some b ∧
        v = { base := y, number := second.nextNumber y } := by
    rintro y v hmem rfl
    obtain ⟨y, a, b, ha, hb, -, rfl⟩ := hm.defined hmem
    exact ⟨a, b, ha, hb, rfl⟩
  constructor
  · intro hmem
    obtain ⟨a, b, ha, -, heq⟩ := hjoined hmem (base_current first x)
    rw [current_of_get? ha] at heq
    have hlt := hone x a ha
    cases heq
    omega
  · intro hmem
    obtain ⟨a, b, -, hb, heq⟩ := hjoined hmem (base_current second x)
    rw [current_of_get? hb] at heq
    have hlt := hv x b hb
    cases heq
    omega

end Meets

namespace Simulates

variable {M : Meaning String δ} {s s₁ s' : Scope} {σ σ₁ σ₂ σ' : Store δ} {vs₁ vs₂ : List δ}
  {c₁ c₂ : Code}

theorem nil (s : Scope) (σ : Store δ) : Simulates M s [] s σ [] σ := by
  intro r hr
  exact ⟨r, Code.solved_nil _ r, by simp [Code.Passed], fun _ _ => rfl, hr⟩

/-- Claiming inputs changes no version in force. -/
theorem of_claims {names : List String} (hclaims : s.Claims names s₁)
    (h : Simulates M s₁ c₁ s' σ vs₁ σ') : Simulates M s c₁ s' σ vs₁ σ' := by
  intro r hr
  refine h r ?_
  intro x
  rw [hclaims.current_eq, hr x]

/-- Two solutions in sequence. -/
theorem exists_append {lo mid hi : String → Nat} (hw₁ : Code.Within lo mid c₁)
    (hw₂ : Code.Within mid hi c₂) {r r₁ r₂ : Version → δ}
    (hsolved₁ : Code.Solved M.versions r₁ c₁)
    (hpassed₁ : Code.Passed M.versions r₁ c₁ ↔ ∀ d ∈ vs₁, M.truth d = true)
    (hkeep₁ : ∀ v, v ∉ Code.defined c₁ → r₁ v = r v) (hsolved₂ : Code.Solved M.versions r₂ c₂)
    (hpassed₂ : Code.Passed M.versions r₂ c₂ ↔ ∀ d ∈ vs₂, M.truth d = true)
    (hkeep₂ : ∀ v, v ∉ Code.defined c₂ → r₂ v = r₁ v) :
    Code.Solved M.versions r₂ (c₁ ++ c₂) ∧
      (Code.Passed M.versions r₂ (c₁ ++ c₂) ↔ ∀ d ∈ vs₁ ++ vs₂, M.truth d = true) ∧
      ∀ v, v ∉ Code.defined (c₁ ++ c₂) → r₂ v = r v := by
  refine ⟨Code.solved_append.mpr ⟨hsolved₁.later hw₁ hw₂ hkeep₂, hsolved₂⟩, ?_, ?_⟩
  · rw [Code.passed_append, Code.passed_later hw₁ hw₂ hkeep₂, hpassed₁, hpassed₂,
      List.forall_mem_append]
  · intro v hv
    rw [Code.defined_append, List.mem_append, not_or] at hv
    rw [hkeep₂ v hv.2, hkeep₁ v hv.1]

/-- Two pieces in sequence. -/
theorem trans {lo mid hi : String → Nat} (h₁ : Simulates M s c₁ s₁ σ vs₁ σ₁)
    (h₂ : Simulates M s₁ c₂ s' σ₁ vs₂ σ') (hw₁ : Code.Within lo mid c₁)
    (hw₂ : Code.Within mid hi c₂) : Simulates M s (c₁ ++ c₂) s' σ (vs₁ ++ vs₂) σ' := by
  intro r hr
  obtain ⟨r₁, hsolved₁, hpassed₁, hkeep₁, hmatch₁⟩ := h₁ r hr
  obtain ⟨r₂, hsolved₂, hpassed₂, hkeep₂, hmatch₂⟩ := h₂ r₁ hmatch₁
  obtain ⟨hsolved, hpassed, hkeep⟩ :=
    exists_append hw₁ hw₂ hsolved₁ hpassed₁ hkeep₁ hsolved₂ hpassed₂ hkeep₂
  exact ⟨r₂, hsolved, hpassed, hkeep, hmatch₂⟩

/-- An assignment whose value reads known names. -/
theorem define (hv : s.Valid) (a : Assignment)
    (hknown : ∀ x ∈ a.value.names, s.env.get? x ≠ none) :
    Simulates M s
      [.define { base := a.target, number := s.nextNumber a.target } (s.resolve a.value)]
      (s.advance a.target) σ [] (a.run M σ) := by
  intro r hr
  have hstep := Step.define hv a.target hknown
  refine ⟨Function.update r { base := a.target, number := s.nextNumber a.target }
    (a.value.eval M σ), ?_, by simp [Code.Passed, Instr.Passed], ?_, ?_⟩
  · have hread : (s.resolve a.value).eval M.versions (Function.update r
        { base := a.target, number := s.nextNumber a.target } (a.value.eval M σ)) =
        a.value.eval M σ := by
      rw [← eval_resolve M hr]
      refine Expr.eval_congr ?_
      intro v hmem
      refine Function.update_of_ne ?_ _ r
      rintro rfl
      exact Nat.lt_irrefl _ (below_resolve hv hknown hmem).2.2
    intro instr hmem
    cases List.mem_singleton.mp hmem
    rw [Instr.Solved, Function.update_self, hread]
  · intro v hmem
    refine Function.update_of_ne ?_ _ r
    rintro rfl
    exact hmem (by simp [Code.defined, Instr.defined?])
  · intro x
    by_cases hx : x = a.target
    · subst hx
      rw [current_of_get? (by rw [env_advance, if_pos rfl]), Function.update_self,
        Assignment.run, Function.update_self]
    · have hcur : (s.advance a.target).current x = s.current x :=
        current_congr (by rw [env_advance, if_neg hx])
      rw [hcur, Assignment.run, Function.update_of_ne hx, ← hr x]
      refine Function.update_of_ne ?_ _ r
      intro h
      exact hx (congrArg Version.base h)

/-- An assertion whose condition reads the versions in force. -/
theorem check (cond : Expr String) :
    Simulates M s [.check (s.resolve cond)] s σ [cond.eval M σ] σ := by
  intro r hr
  refine ⟨r, ?_, ?_, fun _ _ => rfl, hr⟩
  · intro instr hmem
    cases List.mem_singleton.mp hmem
    trivial
  · simp [Code.Passed, Instr.Passed, eval_resolve M hr]

/-- A piece of code before joins, the joins, and the choice between two paths that they make. -/
theorem join {guard : Expr Version} {first second joined : Scope} {before joins : Code}
    (hbefore : Code.Within s.nextNumber second.nextNumber before)
    (hm : Meets guard first.env second joins joined) (hv : second.Valid)
    (hone : ∀ x a, first.env.get? x = some a → a < second.nextNumber x)
    (hdom : ∀ x, first.env.get? x = none ↔ second.env.get? x = none)
    (hguard : ∀ v ∈ guard.names, Code.Below s.nextNumber v) {r r₁ : Version → δ}
    (hsolved : Code.Solved M.versions r₁ before)
    (hpassed : Code.Passed M.versions r₁ before ↔ ∀ d ∈ vs₁, M.truth d = true)
    (hkeep : ∀ v, v ∉ Code.defined before → r₁ v = r v)
    (hmatch : ∀ x, (if M.truth (guard.eval M.versions r) then r₁ (first.current x)
      else r₁ (second.current x)) = σ' x) :
    ∃ r', Code.Solved M.versions r' (before ++ joins) ∧
      (Code.Passed M.versions r' (before ++ joins) ↔ ∀ d ∈ vs₁, M.truth d = true) ∧
      (∀ v, v ∉ Code.defined (before ++ joins) → r' v = r v) ∧
      ∀ x, r' (joined.current x) = σ' x := by
  have hguard' : ∀ v ∈ guard.names, Code.Below second.nextNumber v := fun v hmem =>
    (hguard v hmem).mono hbefore.le
  have hjoins := Code.Within.joins hm hv hone hguard'
  obtain ⟨r', hsolved', hkeep'⟩ := hjoins.exists_solved M.versions r₁
  have hnone : Code.Passed M.versions r' joins ↔ ∀ d ∈ ([] : List δ), M.truth d = true :=
    iff_of_true (hm.passed _ r') (by simp)
  obtain ⟨hsolved'', hpassed'', hkeep''⟩ :=
    exists_append hbefore hjoins hsolved hpassed hkeep hsolved' hnone hkeep'
  rw [List.append_nil] at hpassed''
  refine ⟨r', hsolved'', hpassed'', hkeep'', ?_⟩
  -- neither the code before the joins nor the joins change the guard
  have hg : guard.eval M.versions r' = guard.eval M.versions r := by
    refine Expr.eval_congr ?_
    intro v hmem
    rw [hkeep' v (hjoins.not_defined (hguard' v hmem)),
      hkeep v (hbefore.not_defined (hguard v hmem))]
  intro x
  obtain ⟨hfirst, hsecond⟩ := hm.current_not_defined hv hone x
  rw [hm.current_of_solved hdom hsolved' x, hg, hkeep' _ hfirst, hkeep' _ hsecond, hmatch x]

/-! ## Branches -/

section

variable {cond : Expr String} {t e : Block} {first second joined : Scope}
  {thenCode elseCode joins : Code}

/-- Both arms of a branch know the same names at their ends, if the branch writes only known
names. -/
theorem same_known (h : Block.Branch cond t e s thenCode first elseCode second joins joined)
    (hwrites : ∀ x ∈ Block.assigned t ++ Block.assigned e, s.env.get? x ≠ none) (x : String) :
    first.env.get? x = none ↔ second.env.get? x = none := by
  simp only [List.mem_append] at hwrites
  rw [← not_iff_not]
  show first.env.get? x ≠ none ↔ second.env.get? x ≠ none
  have hknown := h.known x
  simp only [List.mem_append] at hknown
  rw [h.thenStep.known x, h.elseStep.known x]
  grind

/-- The arms are solved one after the other, both from the values that the branch starts with. -/
theorem exists_arms (h : Block.Branch cond t e s thenCode first elseCode second joins joined)
    (hwrites : ∀ x ∈ Block.assigned t ++ Block.assigned e, s.env.get? x ≠ none)
    (hthen : Simulates M s thenCode first σ vs₁ σ₁)
    (helse : Simulates M { env := s.env, next := first.next } elseCode second σ vs₂ σ₂)
    {r : Version → δ} (hr : ∀ x, r (s.current x) = σ x) :
    ∃ r₁, Code.Solved M.versions r₁ (thenCode ++ elseCode) ∧
      (Code.Passed M.versions r₁ (thenCode ++ elseCode) ↔ ∀ d ∈ vs₁ ++ vs₂, M.truth d = true) ∧
      (∀ v, v ∉ Code.defined (thenCode ++ elseCode) → r₁ v = r v) ∧
      ∀ x, r₁ (first.current x) = σ₁ x ∧ r₁ (second.current x) = σ₂ x := by
  have ht := h.thenStep
  have he := h.elseStep
  obtain ⟨r₁, hsolved₁, hpassed₁, hkeep₁, hmatch₁⟩ := hthen r hr
  have hstart : ∀ x, r₁ (s.current x) = σ x := by
    intro x
    rw [hkeep₁ _ (ht.current_not_defined h.valid
      (fun x hx => hwrites x (List.mem_append_left _ hx)) x), hr x]
  obtain ⟨r₂, hsolved₂, hpassed₂, hkeep₂, hmatch₂⟩ := helse r₁ hstart
  obtain ⟨hsolved, hpassed, hkeep⟩ :=
    exists_append ht.within he.within hsolved₁ hpassed₁ hkeep₁ hsolved₂ hpassed₂ hkeep₂
  refine ⟨r₂, hsolved, hpassed, hkeep, fun x => ⟨?_, hmatch₂ x⟩⟩
  -- the second arm defines no version that is in force after the first one
  rw [← hmatch₁ x]
  refine hkeep₂ _ ?_
  by_cases hx : first.env.get? x = none
  · intro hmem
    have hbase := he.targets _ hmem
    rw [base_current] at hbase
    exact (ht.known x).mpr (.inl (hwrites x (List.mem_append_right _ hbase))) hx
  · exact he.within.not_defined ⟨rfl, ht.valid.current_lt hx⟩

/-- A branch that writes only known names. -/
theorem ifElse (h : Block.Branch cond t e s thenCode first elseCode second joins joined)
    (hwrites : ∀ x ∈ Block.assigned t ++ Block.assigned e, s.env.get? x ≠ none)
    (hthen : Simulates M s thenCode first σ vs₁ σ₁)
    (helse : Simulates M { env := s.env, next := first.next } elseCode second σ vs₂ σ₂) :
    Simulates M s (thenCode ++ elseCode ++ joins) joined σ (vs₁ ++ vs₂)
      (if M.truth (cond.eval M σ) then σ₁ else σ₂) := by
  intro r hr
  obtain ⟨r₁, hsolved, hpassed, hkeep, hmatch⟩ := exists_arms h hwrites hthen helse hr
  have ht := h.thenStep
  have he := h.elseStep
  refine join (ht.within.append he.within) h.meets he.valid ?_ (same_known h hwrites) ?_ hsolved
    hpassed hkeep ?_
  · exact fun x a ha => Nat.lt_of_lt_of_le (ht.valid x a ha) (he.within.le x)
  · exact fun v hmem => (below_resolve h.valid h.known_cond hmem).2
  · intro x
    rw [eval_resolve M hr cond, (hmatch x).1, (hmatch x).2, ite_apply]

end

/-! ## Loops -/

/-- The joins at the entry of a loop are no equations. -/
theorem solved_entryCode (M : Meaning Version δ) (r : Version → δ) (s after : Scope)
    (names : List String) : Code.Solved M r (s.entryCode after names) := by
  intro instr hmem
  obtain ⟨x, -, rfl⟩ := List.mem_map.mp hmem
  trivial

theorem passed_entryCode (M : Meaning Version δ) (r : Version → δ) (s after : Scope)
    (names : List String) : Code.Passed M r (s.entryCode after names) := by
  intro instr hmem
  obtain ⟨x, -, rfl⟩ := List.mem_map.mp hmem
  trivial

section

variable {cond : Expr String} {body : Block} {after final : Scope} {code exits : Code}

/-- A loop that writes only known names defines no version that is in force before it. -/
theorem current_not_defined_body (h : Block.Loop cond body s code after exits final)
    (hwrites : ∀ x ∈ Block.assigned body, s.env.get? x ≠ none) (x : String) :
    s.current x ∉ Code.defined code ∧
      s.current x ∉ Code.defined (s.entryCode after (Block.carried body s)) := by
  rw [← not_or, ← List.mem_append, ← Code.defined_append]
  by_cases hx : s.env.get? x = none
  · rw [Code.defined_append, List.mem_append, not_or]
    refine ⟨fun hmem => hwrites x (h.bodyStep.targets _ hmem) hx, ?_⟩
    intro hmem
    obtain ⟨y, hy, heq⟩ := mem_defined_entryCode.mp hmem
    have hxy : x = y := congrArg Version.base heq
    exact (Block.mem_carried.mp hy).2 (hxy ▸ hx)
  · exact h.within_body.not_defined ⟨rfl, h.valid.current_lt hx⟩

/-- A loop knows the same names before its body and after it. -/
theorem same_known_body (h : Block.Loop cond body s code after exits final)
    (hwrites : ∀ x ∈ Block.assigned body, s.env.get? x ≠ none) (x : String) :
    s.env.get? x = none ↔ after.env.get? x = none := by
  rw [← not_iff_not]
  show s.env.get? x ≠ none ↔ after.env.get? x ≠ none
  have hcarried : x ∈ Block.carried body s → s.env.get? x ≠ none := fun hx =>
    (Block.mem_carried.mp hx).2
  have hknown := h.known x
  simp only [List.mem_append] at hknown
  rw [h.bodyStep.known x, env_advanceAll (Block.nodup_carried body s)]
  grind

/-- A name that the body of a loop does not assign keeps its version at the entry. -/
theorem current_advanceAll_carried {x : String} (hx : x ∉ Block.assigned body) :
    (s.advanceAll (Block.carried body s)).current x = s.current x := by
  refine current_congr ?_
  rw [env_advanceAll (Block.nodup_carried body s), if_neg]
  exact fun hmem => hx (Block.mem_carried.mp hmem).1

/-- The body of a loop is solved with the values of any store that agrees with the one before the
loop on what the body does not assign. -/
theorem exists_body (h : Block.Loop cond body s code after exits final)
    (hwrites : ∀ x ∈ Block.assigned body, s.env.get? x ≠ none) {σ₀ : Store δ}
    (hσ₀ : ∀ x, x ∉ Block.assigned body → σ₀ x = σ x)
    (hsim : Simulates M (s.advanceAll (Block.carried body s)) code after σ₀ vs₁ σ₁)
    {r : Version → δ} (hr : ∀ x, r (s.current x) = σ x) :
    ∃ r₁, Code.Solved M.versions r₁ code ∧
      (Code.Passed M.versions r₁ code ↔ ∀ d ∈ vs₁, M.truth d = true) ∧
      (∀ v, v ∉ Code.defined (code ++ s.entryCode after (Block.carried body s)) → r₁ v = r v) ∧
      ∀ x, r₁ (s.current x) = σ x ∧ r₁ (after.current x) = σ₁ x := by
  have hcurrent := current_not_defined_body h hwrites
  -- the versions at the entry take their values from the store that the body starts with
  let r₀ : Version → δ := fun v =>
    if v ∈ Code.defined (s.entryCode after (Block.carried body s)) then σ₀ v.base else r v
  have hstart : ∀ x, r₀ ((s.advanceAll (Block.carried body s)).current x) = σ₀ x := by
    intro x
    by_cases hx : x ∈ Block.assigned body
    · have hcarried := Block.mem_carried.mpr ⟨hx, hwrites x hx⟩
      rw [current_of_get? (by rw [env_advanceAll (Block.nodup_carried body s), if_pos hcarried])]
      exact if_pos (mem_defined_entryCode.mpr ⟨x, hcarried, rfl⟩)
    · rw [current_advanceAll_carried hx, hσ₀ x hx, ← hr x]
      exact if_neg (hcurrent x).2
  obtain ⟨r₁, hsolved₁, hpassed₁, hkeep₁, hmatch₁⟩ := hsim r₀ hstart
  have hkeep : ∀ v, v ∉ Code.defined (code ++ s.entryCode after (Block.carried body s)) →
      r₁ v = r v := by
    intro v hmem
    rw [Code.defined_append, List.mem_append, not_or] at hmem
    rw [hkeep₁ v hmem.1]
    exact if_neg hmem.2
  refine ⟨r₁, hsolved₁, hpassed₁, hkeep, fun x => ⟨?_, hmatch₁ x⟩⟩
  rw [← hr x]
  refine hkeep _ ?_
  rw [Code.defined_append, List.mem_append, not_or]
  exact hcurrent x

/-- A loop that writes only known names. -/
theorem whileDo (h : Block.Loop cond body s code after exits final)
    (hwrites : ∀ x ∈ Block.assigned body, s.env.get? x ≠ none) {σ₀ : Store δ}
    (hσ₀ : ∀ x, x ∉ Block.assigned body → σ₀ x = σ x)
    (hsim : Simulates M (s.advanceAll (Block.carried body s)) code after σ₀ vs₁ σ₁) :
    Simulates M s (code ++ s.entryCode after (Block.carried body s) ++ exits) final σ vs₁
      (if M.truth (cond.eval M σ) then σ₁ else σ) := by
  intro r hr
  obtain ⟨r₁, hsolved, hpassed, hkeep, hmatch⟩ := exists_body h hwrites hσ₀ hsim hr
  refine join h.within_body h.meets h.bodyStep.valid ?_ (same_known_body h hwrites) ?_
    (Code.solved_append.mpr ⟨hsolved, solved_entryCode _ _ _ _ _⟩) ?_ hkeep ?_
  · exact fun x a ha => Nat.lt_of_lt_of_le (h.valid x a ha) (h.within_body.le x)
  · exact fun v hmem => (below_resolve h.valid h.known_cond hmem).2
  · rw [Code.passed_append, hpassed]
    exact and_iff_left (passed_entryCode _ _ _ _ _)
  · -- the guard of the joins is the negated condition, and the first path goes around the loop
    intro x
    rw [truth_not_resolve M hr, (hmatch x).1, (hmatch x).2]
    cases M.truth (cond.eval M σ) <;> rfl

end

end Simulates

/-! ## The stores of a solution

A solution of code gives a store to every scope: the values of the versions in force. A statement
leads from the store before it to the store after it.
-/

section Stores

variable {M : Meaning String δ} {r : Version → δ} {s s₁ : Scope}

theorem store_claims {names : List String} (h : s.Claims names s₁) :
    (fun x => r (s₁.current x)) = fun x => r (s.current x) := by
  funext x
  rw [h.current_eq]

theorem store_define {a : Assignment}
    (h : Instr.Solved M.versions r
      (.define { base := a.target, number := s.nextNumber a.target } (s.resolve a.value))) :
    (fun x => r ((s.advance a.target).current x)) = a.run M fun x => r (s.current x) := by
  have hvalue := eval_resolve M (s := s) (r := r) (fun _ => rfl) a.value
  funext x
  by_cases hx : x = a.target
  · subst hx
    rw [current_of_get? (by rw [env_advance, if_pos rfl]), Assignment.run, Function.update_self,
      ← hvalue]
    exact h
  · rw [current_congr (s := s) (by rw [env_advance, if_neg hx]), Assignment.run,
      Function.update_of_ne hx]

variable {cond : Expr String}

theorem store_ifElse {t e : Block} {first second joined : Scope} {thenCode elseCode joins : Code}
    (h : Block.Branch cond t e s thenCode first elseCode second joins joined)
    (hwrites : ∀ x ∈ Block.assigned t ++ Block.assigned e, s.env.get? x ≠ none)
    (hjoins : Code.Solved M.versions r joins) :
    (fun x => r (joined.current x)) =
      if M.truth (cond.eval M fun x => r (s.current x)) then fun x => r (first.current x)
      else fun x => r (second.current x) := by
  funext x
  rw [h.meets.current_of_solved (Simulates.same_known h hwrites) hjoins,
    eval_resolve M (s := s) (r := r) fun _ => rfl, ite_apply]

theorem store_whileDo {body : Block} {after final : Scope} {code exits : Code}
    (h : Block.Loop cond body s code after exits final)
    (hwrites : ∀ x ∈ Block.assigned body, s.env.get? x ≠ none)
    (hexits : Code.Solved M.versions r exits) :
    (fun x => r (final.current x)) =
      if M.truth (cond.eval M fun x => r (s.current x)) then fun x => r (after.current x)
      else fun x => r (s.current x) := by
  funext x
  rw [h.meets.current_of_solved (Simulates.same_known_body h hwrites) hexits,
    truth_not_resolve M (s := s) (r := r) fun _ => rfl]
  cases M.truth (cond.eval M fun x => r (s.current x)) <;> rfl

end Stores

section Assertions

variable (M : Meaning Version δ) (r : Version → δ) {cond : Expr String} {s : Scope}

/-- The assertions of a branch are those of its arms. -/
theorem passed_ifElse {t e : Block} {first second joined : Scope} {thenCode elseCode joins : Code}
    (h : Block.Branch cond t e s thenCode first elseCode second joins joined) :
    Code.Passed M r (thenCode ++ elseCode ++ joins) ↔
      Code.Passed M r thenCode ∧ Code.Passed M r elseCode := by
  rw [Code.passed_append, Code.passed_append]
  exact and_iff_left (h.meets.passed M r)

/-- The assertions of a loop are those of its body. -/
theorem passed_whileDo {body : Block} {after final : Scope} {code exits : Code}
    (h : Block.Loop cond body s code after exits final) :
    Code.Passed M r (code ++ s.entryCode after (Block.carried body s) ++ exits) ↔
      Code.Passed M r code := by
  rw [Code.passed_append, Code.passed_append]
  exact (and_iff_left (h.meets.passed M r)).trans
    (and_iff_left (Simulates.passed_entryCode M r _ _ _))

end Assertions

end Scope

open Scope

namespace Block

/-- Every traversal of a prepared block is matched by its code. -/
theorem Numbers.simulates {M : Meaning String δ} {b : Block} {s s' : Scope} {code : Code}
    (h : Numbers b s code s') (hv : s.Valid) (hprep : prepared b s = true) {σ σ' : Store δ}
    {vs : List δ} (htrav : Traversal M b σ vs σ') : Simulates M s code s' σ vs σ' := by
  induction h generalizing σ σ' vs with
  | nil s =>
    cases htrav
    exact .nil s σ
  | @assign span a rest s s₁ s' more hclaim hrest ih =>
    have hclaims := claims_of_claim hclaim
    have hv₁ := hclaims.valid hv
    have hknown : ∀ x ∈ a.value.names, s₁.env.get? x ≠ none := fun x hx =>
      hclaims.env_ne_none.mpr (.inr hx)
    have hdef := Step.define hv₁ a.target hknown
    obtain ⟨-, hprep'⟩ := prepared_of_cons hprep hv (.assign hclaim (.nil _))
    cases htrav with
    | assign htrav =>
      have hsim := (Simulates.define hv₁ a hknown).trans (ih hdef.valid hprep' htrav) hdef.within
        (hrest.step hdef.valid).within
      exact hsim.of_claims hclaims
  | @check span cond rest s s₁ s' more hclaim hrest ih =>
    have hclaims := claims_of_claim hclaim
    have hv₁ := hclaims.valid hv
    have hcheck := Step.check hv₁ fun x hx => hclaims.env_ne_none.mpr (.inr hx)
    obtain ⟨-, hprep'⟩ := prepared_of_cons hprep hv (.check hclaim (.nil _))
    cases htrav with
    | check htrav =>
      have hsim := (Simulates.check cond).trans (ih hv₁ hprep' htrav) hcheck.within
        (hrest.step hv₁).within
      exact hsim.of_claims hclaims
  | ifElse hclaim ht he hjoin hrest iht ihe ihrest =>
    have hbranch := Branch.of_claim hv hclaim ht.step he.step hjoin
    obtain ⟨hstmt, hprep'⟩ := prepared_of_cons hprep hv (.ifElse hclaim ht he hjoin (.nil _))
    obtain ⟨hwrites, hprept, hprepe⟩ :=
      prepared_ifElse hstmt hclaim (ht.number_eq hbranch.valid)
    cases htrav with
    | ifElse htravt htrave htravrest =>
      have hsim := Simulates.ifElse hbranch hwrites (iht hbranch.valid hprept htravt)
        (ihe hbranch.elseValid hprepe htrave)
      exact (hsim.trans (ihrest hbranch.step.valid hprep' htravrest) hbranch.step.within
        (hrest.step hbranch.step.valid).within).of_claims (claims_of_claim hclaim)
  | whileDo hclaim hbody hexit hrest ihbody ihrest =>
    have hloop := Loop.of_claim hv hclaim hbody.step hexit
    obtain ⟨hstmt, hprep'⟩ := prepared_of_cons hprep hv (.whileDo hclaim hbody hexit (.nil _))
    obtain ⟨hwrites, hprepb⟩ := prepared_whileDo hstmt hclaim
    cases htrav with
    | whileDo hkeep htravbody htravrest =>
      have hsim := Simulates.whileDo hloop hwrites hkeep
        (ihbody (hloop.valid.advanceAll _) hprepb htravbody)
      exact (hsim.trans (ihrest hloop.step.valid hprep' htravrest) hloop.step.within
        (hrest.step hloop.step.valid).within).of_claims (claims_of_claim hclaim)
  | forDo _ ih =>
    rw [prepared_forDo] at hprep
    cases htrav with
    | forDo htrav => exact ih hv hprep htrav

/-- Every solution of the code of a prepared block is that of a traversal. -/
theorem Numbers.exists_traversal {M : Meaning String δ} {b : Block} {s s' : Scope} {code : Code}
    (h : Numbers b s code s') (hv : s.Valid) (hprep : prepared b s = true) {r : Version → δ}
    (hsolved : Code.Solved M.versions r code) :
    ∃ vs, Traversal M b (fun x => r (s.current x)) vs (fun x => r (s'.current x)) ∧
      (Code.Passed M.versions r code ↔ ∀ d ∈ vs, M.truth d = true) := by
  induction h with
  | nil s => exact ⟨[], .nil _, by simp [Code.Passed]⟩
  | @assign span a rest s s₁ s' more hclaim hrest ih =>
    have hclaims := claims_of_claim hclaim
    obtain ⟨-, hprep'⟩ := prepared_of_cons hprep hv (.assign hclaim (.nil _))
    rw [Code.solved_cons] at hsolved
    obtain ⟨vs, htrav, hpassed⟩ := ih ((hclaims.valid hv).advance _) hprep' hsolved.2
    rw [store_define hsolved.1, store_claims hclaims] at htrav
    refine ⟨vs, .assign htrav, ?_⟩
    rw [Code.passed_cons, hpassed]
    exact and_iff_right trivial
  | @check span cond rest s s₁ s' more hclaim hrest ih =>
    have hclaims := claims_of_claim hclaim
    obtain ⟨-, hprep'⟩ := prepared_of_cons hprep hv (.check hclaim (.nil _))
    rw [Code.solved_cons] at hsolved
    obtain ⟨vs, htrav, hpassed⟩ := ih (hclaims.valid hv) hprep' hsolved.2
    have hvalue := eval_resolve M (s := s₁) (r := r) (fun _ => rfl) cond
    rw [store_claims hclaims] at hvalue htrav
    refine ⟨_, .check htrav, ?_⟩
    rw [Code.passed_cons, hpassed, List.forall_mem_cons, Instr.Passed, hvalue,
      Meaning.truth_versions]
  | @ifElse span cond t e rest s s₁ first second joined s' thenCode elseCode joins more hclaim ht he
      hjoin hrest iht ihe ihrest =>
    have hbranch := Branch.of_claim hv hclaim ht.step he.step hjoin
    obtain ⟨hstmt, hprep'⟩ := prepared_of_cons hprep hv (.ifElse hclaim ht he hjoin (.nil _))
    obtain ⟨hwrites, hprept, hprepe⟩ :=
      prepared_ifElse hstmt hclaim (ht.number_eq hbranch.valid)
    rw [Code.solved_append, Code.solved_append, Code.solved_append] at hsolved
    obtain ⟨⟨⟨hthen, helse⟩, hjoins⟩, hmore⟩ := hsolved
    obtain ⟨vs₁, htrav₁, hpassed₁⟩ := iht hbranch.valid hprept hthen
    obtain ⟨vs₂, htrav₂, hpassed₂⟩ := ihe hbranch.elseValid hprepe helse
    obtain ⟨vs₃, htrav₃, hpassed₃⟩ := ihrest hbranch.step.valid hprep' hmore
    rw [store_ifElse hbranch hwrites hjoins] at htrav₃
    rw [← store_claims (claims_of_claim hclaim)]
    -- the second arm has the versions in force that the first one has
    refine ⟨_, .ifElse htrav₁ (show Traversal M e (fun x => r (s₁.current x)) vs₂ _ from htrav₂)
      htrav₃, ?_⟩
    rw [Code.passed_append, passed_ifElse _ _ hbranch, hpassed₁, hpassed₂, hpassed₃,
      List.forall_mem_append, List.forall_mem_append]
  | @whileDo span cond body rest s s₁ after final s' code exits more hclaim hbody hexit hrest ihbody
      ihrest =>
    have hloop := Loop.of_claim hv hclaim hbody.step hexit
    obtain ⟨hstmt, hprep'⟩ := prepared_of_cons hprep hv (.whileDo hclaim hbody hexit (.nil _))
    obtain ⟨hwrites, hprepb⟩ := prepared_whileDo hstmt hclaim
    rw [Code.solved_append, Code.solved_append, Code.solved_append] at hsolved
    obtain ⟨⟨⟨hsolvedb, -⟩, hexits⟩, hmore⟩ := hsolved
    obtain ⟨vs₁, htrav₁, hpassed₁⟩ := ihbody (hloop.valid.advanceAll _) hprepb hsolvedb
    obtain ⟨vs₂, htrav₂, hpassed₂⟩ := ihrest hloop.step.valid hprep' hmore
    rw [store_whileDo hloop hwrites hexits] at htrav₂
    rw [← store_claims (claims_of_claim hclaim)]
    refine ⟨_, .whileDo ?_ htrav₁ htrav₂, ?_⟩
    · intro x hx
      rw [Simulates.current_advanceAll_carried hx]
    · rw [Code.passed_append, passed_whileDo _ _ hloop, hpassed₁, hpassed₂,
        List.forall_mem_append]
  | forDo _ ih =>
    rw [prepared_forDo] at hprep
    obtain ⟨vs, htrav, hpassed⟩ := ih hv hprep hsolved
    exact ⟨vs, .forDo htrav, hpassed⟩

end Block

end WhileSmt
