import WhileSmt.Proofs.Meaning
import WhileSmt.Proofs.Program

/-!
Runs of programs. A run of a block leads from one store to another and lists the values of the
conditions of the assertions that it meets, in order; an assertion changes nothing, whatever its
value. A counting loop runs as its first assignment and then the loop whose body ends with the
second.

Main statements: a run is determined by the store it starts from (`Block.Run.unique`), and it
changes only the names that the block assigns (`Block.Run.unassigned`).
-/

namespace WhileSmt

universe u

/-- The values of all names. -/
abbrev Store (δ : Type u) := String → δ

variable {δ : Type u}

/-- The store after an assignment. -/
def Assignment.run (M : Meaning String δ) (a : Assignment) (σ : Store δ) : Store δ :=
  Function.update σ a.target (a.value.eval M σ)

/-- Terminating runs of a block, from a store to a store, with the values of the conditions of the
assertions on the way. -/
inductive Block.Run (M : Meaning String δ) : Block → Store δ → List δ → Store δ → Prop where
  | nil (σ : Store δ) : Run M [] σ [] σ
  | assign {span : Span} {a : Assignment} {rest : Block} {σ σ' : Store δ} {vs : List δ} :
      Run M rest (a.run M σ) vs σ' → Run M (.assign span a :: rest) σ vs σ'
  | check {span : Span} {cond : Expr String} {rest : Block} {σ σ' : Store δ} {vs : List δ} :
      Run M rest σ vs σ' → Run M (.check span cond :: rest) σ (cond.eval M σ :: vs) σ'
  | ifTrue {span : Span} {cond : Expr String} {t e rest : Block} {σ σ₁ σ' : Store δ}
      {vs₁ vs₂ : List δ} :
      M.truth (cond.eval M σ) = true → Run M t σ vs₁ σ₁ → Run M rest σ₁ vs₂ σ' →
      Run M (.ifElse span cond t e :: rest) σ (vs₁ ++ vs₂) σ'
  | ifFalse {span : Span} {cond : Expr String} {t e rest : Block} {σ σ₁ σ' : Store δ}
      {vs₁ vs₂ : List δ} :
      M.truth (cond.eval M σ) = false → Run M e σ vs₁ σ₁ → Run M rest σ₁ vs₂ σ' →
      Run M (.ifElse span cond t e :: rest) σ (vs₁ ++ vs₂) σ'
  | whileFalse {span : Span} {cond : Expr String} {body rest : Block} {σ σ' : Store δ}
      {vs : List δ} :
      M.truth (cond.eval M σ) = false → Run M rest σ vs σ' →
      Run M (.whileDo span cond body :: rest) σ vs σ'
  | whileTrue {span : Span} {cond : Expr String} {body rest : Block} {σ σ₁ σ' : Store δ}
      {vs₁ vs₂ : List δ} :
      M.truth (cond.eval M σ) = true → Run M body σ vs₁ σ₁ →
      Run M (.whileDo span cond body :: rest) σ₁ vs₂ σ' →
      Run M (.whileDo span cond body :: rest) σ (vs₁ ++ vs₂) σ'
  | forDo {span : Span} {init update : Assignment} {cond : Expr String} {body rest : Block}
      {σ σ' : Store δ} {vs : List δ} :
      Run M (Block.counting span init cond update body ++ rest) σ vs σ' →
      Run M (.forDo span init cond update body :: rest) σ vs σ'

namespace Block

namespace Run

variable {M : Meaning String δ} {b : Block} {σ σ' : Store δ} {vs : List δ}

/-- A run leaves the names that the block does not assign as they were. -/
theorem unassigned (h : Run M b σ vs σ') {x : String} (hx : x ∉ assigned b) : σ' x = σ x := by
  induction h with
  | nil σ => rfl
  | @assign span a rest σ σ' vs _ ih =>
    simp only [assigned, Stmt.assigned, List.mem_append, List.mem_singleton, not_or] at hx
    rw [ih hx.2, Assignment.run, Function.update_of_ne hx.1]
  | check _ ih =>
    simp only [assigned, Stmt.assigned, List.nil_append] at hx
    exact ih hx
  | ifTrue _ _ _ iht ihrest =>
    simp only [assigned, Stmt.assigned, List.mem_append, not_or] at hx
    rw [ihrest hx.2, iht hx.1.1]
  | ifFalse _ _ _ ihe ihrest =>
    simp only [assigned, Stmt.assigned, List.mem_append, not_or] at hx
    rw [ihrest hx.2, ihe hx.1.2]
  | whileFalse _ _ ih =>
    simp only [assigned, Stmt.assigned, List.mem_append, not_or] at hx
    exact ih hx.2
  | whileTrue _ _ _ ihbody ihloop =>
    have hbody := hx
    simp only [assigned, Stmt.assigned, List.mem_append, not_or] at hbody
    rw [ihloop hx, ihbody hbody.1]
  | forDo _ ih => exact ih (mt mem_assigned_forDo.mpr hx)

/-- A run is determined by the store it starts from. -/
theorem unique (h : Run M b σ vs σ') {vs₀ : List δ} {σ₀ : Store δ} (h₀ : Run M b σ vs₀ σ₀) :
    vs = vs₀ ∧ σ' = σ₀ := by
  induction h generalizing vs₀ σ₀ with
  | nil σ =>
    cases h₀
    exact ⟨rfl, rfl⟩
  | assign _ ih =>
    cases h₀ with
    | assign h₀ => exact ih h₀
  | check _ ih =>
    cases h₀ with
    | check h₀ =>
      obtain ⟨rfl, rfl⟩ := ih h₀
      exact ⟨rfl, rfl⟩
  | ifTrue hc _ _ iht ihrest =>
    cases h₀ with
    | ifTrue _ ht hrest =>
      obtain ⟨rfl, rfl⟩ := iht ht
      obtain ⟨rfl, rfl⟩ := ihrest hrest
      exact ⟨rfl, rfl⟩
    | ifFalse hc' _ _ => simp [hc] at hc'
  | ifFalse hc _ _ ihe ihrest =>
    cases h₀ with
    | ifTrue hc' _ _ => simp [hc] at hc'
    | ifFalse _ he hrest =>
      obtain ⟨rfl, rfl⟩ := ihe he
      obtain ⟨rfl, rfl⟩ := ihrest hrest
      exact ⟨rfl, rfl⟩
  | whileFalse hc _ ih =>
    cases h₀ with
    | whileFalse _ h₀ => exact ih h₀
    | whileTrue hc' _ _ => simp [hc] at hc'
  | whileTrue hc _ _ ihbody ihloop =>
    cases h₀ with
    | whileFalse hc' _ => simp [hc] at hc'
    | whileTrue _ hbody hloop =>
      obtain ⟨rfl, rfl⟩ := ihbody hbody
      obtain ⟨rfl, rfl⟩ := ihloop hloop
      exact ⟨rfl, rfl⟩
  | forDo _ ih =>
    cases h₀ with
    | forDo h₀ => exact ih h₀

/-- A run of two blocks in sequence meets a store between them. -/
theorem split {b₁ b₂ : Block} (h : Run M (b₁ ++ b₂) σ vs σ') :
    ∃ σ₁ vs₁ vs₂, Run M b₁ σ vs₁ σ₁ ∧ Run M b₂ σ₁ vs₂ σ' ∧ vs = vs₁ ++ vs₂ := by
  generalize hb : b₁ ++ b₂ = b at h
  induction h generalizing b₁ with
  | nil σ =>
    obtain ⟨rfl, rfl⟩ := List.append_eq_nil_iff.mp hb
    exact ⟨σ, [], [], .nil σ, .nil σ, rfl⟩
  | @assign span a rest σ σ' vs h ih =>
    rcases List.append_eq_cons_iff.mp hb with ⟨rfl, rfl⟩ | ⟨b₃, rfl, rfl⟩
    · exact ⟨σ, [], vs, .nil σ, .assign h, rfl⟩
    · obtain ⟨σ₁, vs₁, vs₂, h₁, h₂, rfl⟩ := ih rfl
      exact ⟨σ₁, vs₁, vs₂, .assign h₁, h₂, rfl⟩
  | @check span cond rest σ σ' vs h ih =>
    rcases List.append_eq_cons_iff.mp hb with ⟨rfl, rfl⟩ | ⟨b₃, rfl, rfl⟩
    · exact ⟨σ, [], _, .nil σ, .check h, rfl⟩
    · obtain ⟨σ₁, vs₁, vs₂, h₁, h₂, rfl⟩ := ih rfl
      exact ⟨σ₁, _, vs₂, .check h₁, h₂, rfl⟩
  | @ifTrue span cond t e rest σ σ₀ σ' us ws hc ht h _ ih =>
    rcases List.append_eq_cons_iff.mp hb with ⟨rfl, rfl⟩ | ⟨b₃, rfl, rfl⟩
    · exact ⟨σ, [], _, .nil σ, .ifTrue hc ht h, rfl⟩
    · obtain ⟨σ₁, vs₁, vs₂, h₁, h₂, rfl⟩ := ih rfl
      exact ⟨σ₁, _, vs₂, .ifTrue hc ht h₁, h₂, (List.append_assoc ..).symm⟩
  | @ifFalse span cond t e rest σ σ₀ σ' us ws hc he h _ ih =>
    rcases List.append_eq_cons_iff.mp hb with ⟨rfl, rfl⟩ | ⟨b₃, rfl, rfl⟩
    · exact ⟨σ, [], _, .nil σ, .ifFalse hc he h, rfl⟩
    · obtain ⟨σ₁, vs₁, vs₂, h₁, h₂, rfl⟩ := ih rfl
      exact ⟨σ₁, _, vs₂, .ifFalse hc he h₁, h₂, (List.append_assoc ..).symm⟩
  | @whileFalse span cond body rest σ σ' vs hc h ih =>
    rcases List.append_eq_cons_iff.mp hb with ⟨rfl, rfl⟩ | ⟨b₃, rfl, rfl⟩
    · exact ⟨σ, [], _, .nil σ, .whileFalse hc h, rfl⟩
    · obtain ⟨σ₁, vs₁, vs₂, h₁, h₂, rfl⟩ := ih rfl
      exact ⟨σ₁, vs₁, vs₂, .whileFalse hc h₁, h₂, rfl⟩
  | @whileTrue span cond body rest σ σ₀ σ' us ws hc hbody h _ ih =>
    rcases List.append_eq_cons_iff.mp hb with ⟨rfl, rfl⟩ | ⟨b₃, rfl, rfl⟩
    · exact ⟨σ, [], _, .nil σ, .whileTrue hc hbody h, rfl⟩
    · obtain ⟨σ₁, vs₁, vs₂, h₁, h₂, rfl⟩ := @ih (.whileDo span cond body :: b₃) rfl
      exact ⟨σ₁, _, vs₂, .whileTrue hc hbody h₁, h₂, (List.append_assoc ..).symm⟩
  | @forDo span init update cond body rest σ σ' vs h ih =>
    rcases List.append_eq_cons_iff.mp hb with ⟨rfl, rfl⟩ | ⟨b₃, rfl, rfl⟩
    · exact ⟨σ, [], _, .nil σ, .forDo h, rfl⟩
    · obtain ⟨σ₁, vs₁, vs₂, h₁, h₂, rfl⟩ :=
        @ih (counting span init cond update body ++ b₃) (List.append_assoc ..)
      exact ⟨σ₁, vs₁, vs₂, .forDo h₁, h₂, rfl⟩

/-- Two runs in sequence. -/
theorem append {b₁ b₂ : Block} {σ₁ : Store δ} {vs₁ vs₂ : List δ} (h₁ : Run M b₁ σ vs₁ σ₁)
    (h₂ : Run M b₂ σ₁ vs₂ σ') : Run M (b₁ ++ b₂) σ (vs₁ ++ vs₂) σ' := by
  induction h₁ with
  | nil σ => exact h₂
  | assign _ ih => exact .assign (ih h₂)
  | check _ ih => exact .check (ih h₂)
  | ifTrue hc ht _ _ ih =>
    rw [List.append_assoc]
    exact .ifTrue hc ht (ih h₂)
  | ifFalse hc he _ _ ih =>
    rw [List.append_assoc]
    exact .ifFalse hc he (ih h₂)
  | whileFalse hc _ ih => exact .whileFalse hc (ih h₂)
  | whileTrue hc hbody _ _ ih =>
    rw [List.append_assoc]
    exact .whileTrue hc hbody (ih h₂)
  | @forDo span init update cond body rest σ σ₁ vs _ ih =>
    have hrun := ih h₂
    rw [List.append_assoc] at hrun
    exact .forDo hrun

end Run

end Block

end WhileSmt
