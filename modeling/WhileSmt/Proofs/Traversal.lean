import WhileSmt.Proofs.Run

/-!
Traversals of programs. Where a run chooses, a traversal does not: it goes through both arms of
every branch, each from the store at the branch, and once through the body of every loop, from some
store that differs from the one at the loop in assigned names only. It goes on as a run does, with
the store of the arm that the condition selects, or of the body if the condition holds before the
loop.

Main statements: every store has a traversal (`Block.exists_traversal`), every run is followed by
one with the same final store (`Block.Run.exists_traversal`), and if the assertions hold that the
run meets, and can hold where it does not come by, then one whose assertions hold
(`Block.Run.exists_passing`).
-/

namespace WhileSmt

universe u

variable {δ : Type u}

namespace Block

/-- Traversals of a block, from a store to a store, with the values of the conditions of all
assertions. -/
inductive Traversal (M : Meaning String δ) : Block → Store δ → List δ → Store δ → Prop where
  | nil (σ : Store δ) : Traversal M [] σ [] σ
  | assign {span : Span} {a : Assignment} {rest : Block} {σ σ' : Store δ} {vs : List δ} :
      Traversal M rest (a.run M σ) vs σ' → Traversal M (.assign span a :: rest) σ vs σ'
  | check {span : Span} {cond : Expr String} {rest : Block} {σ σ' : Store δ} {vs : List δ} :
      Traversal M rest σ vs σ' → Traversal M (.check span cond :: rest) σ (cond.eval M σ :: vs) σ'
  | ifElse {span : Span} {cond : Expr String} {t e rest : Block} {σ σ₁ σ₂ σ' : Store δ}
      {vs₁ vs₂ vs₃ : List δ} :
      Traversal M t σ vs₁ σ₁ → Traversal M e σ vs₂ σ₂ →
      Traversal M rest (if M.truth (cond.eval M σ) then σ₁ else σ₂) vs₃ σ' →
      Traversal M (.ifElse span cond t e :: rest) σ (vs₁ ++ vs₂ ++ vs₃) σ'
  | whileDo {span : Span} {cond : Expr String} {body rest : Block} {σ σ₀ σ₁ σ' : Store δ}
      {vs₁ vs₂ : List δ} :
      (∀ x, x ∉ assigned body → σ₀ x = σ x) → Traversal M body σ₀ vs₁ σ₁ →
      Traversal M rest (if M.truth (cond.eval M σ) then σ₁ else σ) vs₂ σ' →
      Traversal M (.whileDo span cond body :: rest) σ (vs₁ ++ vs₂) σ'
  | forDo {span : Span} {init update : Assignment} {cond : Expr String} {body rest : Block}
      {σ σ' : Store δ} {vs : List δ} :
      Traversal M (counting span init cond update body ++ rest) σ vs σ' →
      Traversal M (.forDo span init cond update body :: rest) σ vs σ'

/-- Every block has a traversal from every store. -/
theorem exists_traversal (M : Meaning String δ) (b : Block) (σ : Store δ) :
    ∃ vs σ', Traversal M b σ vs σ' := by
  induction b using inductionOn generalizing σ with
  | nil => exact ⟨[], σ, .nil σ⟩
  | assign span a rest ih =>
    obtain ⟨vs, σ', hrest⟩ := ih (a.run M σ)
    exact ⟨vs, σ', .assign hrest⟩
  | check span cond rest ih =>
    obtain ⟨vs, σ', hrest⟩ := ih σ
    exact ⟨_, σ', .check hrest⟩
  | ifElse span cond t e rest iht ihe ihrest =>
    obtain ⟨vs₁, σ₁, ht⟩ := iht σ
    obtain ⟨vs₂, σ₂, he⟩ := ihe σ
    obtain ⟨vs₃, σ', hrest⟩ := ihrest (if M.truth (cond.eval M σ) then σ₁ else σ₂)
    exact ⟨_, σ', .ifElse ht he hrest⟩
  | whileDo span cond body rest ihbody ihrest =>
    obtain ⟨vs₁, σ₁, hbody⟩ := ihbody σ
    obtain ⟨vs₂, σ', hrest⟩ := ihrest (if M.truth (cond.eval M σ) then σ₁ else σ)
    exact ⟨_, σ', .whileDo (fun _ _ => rfl) hbody hrest⟩
  | forDo span init cond update body rest ih =>
    obtain ⟨vs, σ', h⟩ := ih σ
    exact ⟨vs, σ', .forDo h⟩

namespace Traversal

variable {M : Meaning String δ} {span : Span} {cond : Expr String}

/-- A branch whose condition holds goes on from the store of its first arm. -/
theorem ifTrue {t e rest : Block} {σ σ₁ σ₂ σ' : Store δ} {vs₁ vs₂ vs₃ : List δ}
    (hc : M.truth (cond.eval M σ) = true) (ht : Traversal M t σ vs₁ σ₁)
    (he : Traversal M e σ vs₂ σ₂) (hrest : Traversal M rest σ₁ vs₃ σ') :
    Traversal M (.ifElse span cond t e :: rest) σ (vs₁ ++ vs₂ ++ vs₃) σ' := by
  refine .ifElse ht he ?_
  rw [if_pos hc]
  exact hrest

theorem ifFalse {t e rest : Block} {σ σ₁ σ₂ σ' : Store δ} {vs₁ vs₂ vs₃ : List δ}
    (hc : M.truth (cond.eval M σ) = false) (ht : Traversal M t σ vs₁ σ₁)
    (he : Traversal M e σ vs₂ σ₂) (hrest : Traversal M rest σ₂ vs₃ σ') :
    Traversal M (.ifElse span cond t e :: rest) σ (vs₁ ++ vs₂ ++ vs₃) σ' := by
  refine .ifElse ht he ?_
  rw [hc, if_neg Bool.false_ne_true]
  exact hrest

/-- A loop that is not entered goes on from the store before it. -/
theorem whileFalse {body rest : Block} {σ σ₀ σ₁ σ' : Store δ} {vs₁ vs₂ : List δ}
    (hc : M.truth (cond.eval M σ) = false) (hkeep : ∀ x, x ∉ assigned body → σ₀ x = σ x)
    (hbody : Traversal M body σ₀ vs₁ σ₁) (hrest : Traversal M rest σ vs₂ σ') :
    Traversal M (.whileDo span cond body :: rest) σ (vs₁ ++ vs₂) σ' := by
  refine .whileDo hkeep hbody ?_
  rw [hc, if_neg Bool.false_ne_true]
  exact hrest

theorem whileTrue {body rest : Block} {σ σ₀ σ₁ σ' : Store δ} {vs₁ vs₂ : List δ}
    (hc : M.truth (cond.eval M σ) = true) (hkeep : ∀ x, x ∉ assigned body → σ₀ x = σ x)
    (hbody : Traversal M body σ₀ vs₁ σ₁) (hrest : Traversal M rest σ₁ vs₂ σ') :
    Traversal M (.whileDo span cond body :: rest) σ (vs₁ ++ vs₂) σ' := by
  refine .whileDo hkeep hbody ?_
  rw [if_pos hc]
  exact hrest

/-- The body that a loop is traversed with may as well be that of an earlier round. -/
theorem whileDo_earlier {body rest : Block} {σ σ₁ σ' : Store δ} {vs : List δ}
    (hc : M.truth (cond.eval M σ) = true) (hc₁ : M.truth (cond.eval M σ₁) = true)
    (hkeep : ∀ x, x ∉ assigned body → σ₁ x = σ x)
    (h : Traversal M (.whileDo span cond body :: rest) σ₁ vs σ') :
    Traversal M (.whileDo span cond body :: rest) σ vs σ' := by
  cases h with
  | whileDo hkeep₁ hbody hrest =>
    rw [if_pos hc₁] at hrest
    refine .whileTrue hc ?_ hbody hrest
    intro x hx
    rw [hkeep₁ x hx, hkeep x hx]

end Traversal

/-- Every run is followed by a traversal, which takes a loop that is entered through its last
round. -/
theorem Run.exists_traversal {M : Meaning String δ} {b : Block} {σ σ' : Store δ} {vs : List δ}
    (h : Run M b σ vs σ') : ∃ ws, Traversal M b σ ws σ' := by
  induction h with
  | nil σ => exact ⟨[], .nil σ⟩
  | assign _ ih =>
    obtain ⟨ws, hrest⟩ := ih
    exact ⟨ws, .assign hrest⟩
  | check _ ih =>
    obtain ⟨ws, hrest⟩ := ih
    exact ⟨_, .check hrest⟩
  | @ifTrue _ _ _ e _ σ _ _ _ _ hc _ _ iht ihrest =>
    obtain ⟨ws₁, ht⟩ := iht
    obtain ⟨ws₂, σ₂, he⟩ := Block.exists_traversal M e σ
    obtain ⟨ws₃, hrest⟩ := ihrest
    exact ⟨_, .ifTrue hc ht he hrest⟩
  | @ifFalse _ _ t _ _ σ _ _ _ _ hc _ _ ihe ihrest =>
    obtain ⟨ws₁, σ₁, ht⟩ := Block.exists_traversal M t σ
    obtain ⟨ws₂, he⟩ := ihe
    obtain ⟨ws₃, hrest⟩ := ihrest
    exact ⟨_, .ifFalse hc ht he hrest⟩
  | @whileFalse _ _ body _ σ _ _ hc _ ih =>
    obtain ⟨ws₁, σ₁, hbody⟩ := Block.exists_traversal M body σ
    obtain ⟨ws₂, hrest⟩ := ih
    exact ⟨_, .whileFalse hc (fun _ _ => rfl) hbody hrest⟩
  | @whileTrue _ cond _ _ σ σ₁ _ _ _ hc hbody _ ihbody ihloop =>
    obtain ⟨ws, hloop⟩ := ihloop
    cases hc₁ : M.truth (cond.eval M σ₁) with
    | true => exact ⟨ws, hloop.whileDo_earlier hc hc₁ fun x hx => hbody.unassigned hx⟩
    | false =>
      obtain ⟨ws₁, hlast⟩ := ihbody
      cases hloop with
      | whileDo _ _ hrest =>
        rw [hc₁, if_neg Bool.false_ne_true] at hrest
        exact ⟨_, .whileTrue hc (fun _ _ => rfl) hlast hrest⟩
  | forDo _ ih =>
    obtain ⟨ws, h⟩ := ih
    exact ⟨ws, .forDo h⟩

/-! ## Assertions that a run leaves out -/

/-- All assertions of a block can hold in a traversal from the store. -/
def Passable (M : Meaning String δ) (b : Block) (σ : Store δ) : Prop :=
  ∃ vs σ', Traversal M b σ vs σ' ∧ ∀ d ∈ vs, M.truth d = true

/-- The assertions can hold that the run from a store leaves out: those in the other arm of every
branch, from the store at the branch, and those of a loop that is not entered, from some store that
differs from the one at the loop in assigned names only. Of the rounds of a loop only the last one
counts. -/
inductive Clear (M : Meaning String δ) : Block → Store δ → Prop where
  | nil (σ : Store δ) : Clear M [] σ
  | assign {span : Span} {a : Assignment} {rest : Block} {σ : Store δ} :
      Clear M rest (a.run M σ) → Clear M (.assign span a :: rest) σ
  | check {span : Span} {cond : Expr String} {rest : Block} {σ : Store δ} :
      Clear M rest σ → Clear M (.check span cond :: rest) σ
  | ifTrue {span : Span} {cond : Expr String} {t e rest : Block} {σ σ₁ : Store δ}
      {vs : List δ} :
      M.truth (cond.eval M σ) = true → Passable M e σ → Clear M t σ → Run M t σ vs σ₁ →
      Clear M rest σ₁ → Clear M (.ifElse span cond t e :: rest) σ
  | ifFalse {span : Span} {cond : Expr String} {t e rest : Block} {σ σ₁ : Store δ}
      {vs : List δ} :
      M.truth (cond.eval M σ) = false → Passable M t σ → Clear M e σ → Run M e σ vs σ₁ →
      Clear M rest σ₁ → Clear M (.ifElse span cond t e :: rest) σ
  | whileFalse {span : Span} {cond : Expr String} {body rest : Block} {σ σ₀ : Store δ} :
      M.truth (cond.eval M σ) = false → (∀ x, x ∉ assigned body → σ₀ x = σ x) →
      Passable M body σ₀ → Clear M rest σ → Clear M (.whileDo span cond body :: rest) σ
  | whileNext {span : Span} {cond : Expr String} {body rest : Block} {σ σ₁ : Store δ}
      {vs : List δ} :
      M.truth (cond.eval M σ) = true → Run M body σ vs σ₁ → M.truth (cond.eval M σ₁) = true →
      Clear M (.whileDo span cond body :: rest) σ₁ → Clear M (.whileDo span cond body :: rest) σ
  | whileLast {span : Span} {cond : Expr String} {body rest : Block} {σ σ₁ : Store δ}
      {vs : List δ} :
      M.truth (cond.eval M σ) = true → Clear M body σ → Run M body σ vs σ₁ →
      M.truth (cond.eval M σ₁) = false → Clear M rest σ₁ →
      Clear M (.whileDo span cond body :: rest) σ
  | forDo {span : Span} {init update : Assignment} {cond : Expr String} {body rest : Block}
      {σ : Store δ} :
      Clear M (counting span init cond update body ++ rest) σ →
      Clear M (.forDo span init cond update body :: rest) σ

/-! ## Runs whose assertions hold -/

/-- A traversal whose assertions hold leads from one store to the other. -/
def Passes (M : Meaning String δ) (b : Block) (σ σ' : Store δ) : Prop :=
  ∃ ws, Traversal M b σ ws σ' ∧ ∀ d ∈ ws, M.truth d = true

namespace Passes

variable {M : Meaning String δ} {span : Span} {cond : Expr String} {t e body rest : Block}
  {σ σ₀ σ₁ σ' : Store δ}

theorem check (hc : M.truth (cond.eval M σ) = true) (hrest : Passes M rest σ σ') :
    Passes M (.check span cond :: rest) σ σ' := by
  obtain ⟨ws, htrav, hws⟩ := hrest
  exact ⟨_, .check htrav, List.forall_mem_cons.mpr ⟨hc, hws⟩⟩

theorem ifTrue (hc : M.truth (cond.eval M σ) = true) (ht : Passes M t σ σ₁) (he : Passable M e σ)
    (hrest : Passes M rest σ₁ σ') : Passes M (.ifElse span cond t e :: rest) σ σ' := by
  obtain ⟨ws₁, htrav₁, hws₁⟩ := ht
  obtain ⟨ws₂, σ₂, htrav₂, hws₂⟩ := he
  obtain ⟨ws₃, htrav₃, hws₃⟩ := hrest
  refine ⟨_, .ifTrue hc htrav₁ htrav₂ htrav₃, ?_⟩
  rw [List.forall_mem_append, List.forall_mem_append]
  exact ⟨⟨hws₁, hws₂⟩, hws₃⟩

theorem ifFalse (hc : M.truth (cond.eval M σ) = false) (ht : Passable M t σ)
    (he : Passes M e σ σ₁) (hrest : Passes M rest σ₁ σ') :
    Passes M (.ifElse span cond t e :: rest) σ σ' := by
  obtain ⟨ws₁, σ₂, htrav₁, hws₁⟩ := ht
  obtain ⟨ws₂, htrav₂, hws₂⟩ := he
  obtain ⟨ws₃, htrav₃, hws₃⟩ := hrest
  refine ⟨_, .ifFalse hc htrav₁ htrav₂ htrav₃, ?_⟩
  rw [List.forall_mem_append, List.forall_mem_append]
  exact ⟨⟨hws₁, hws₂⟩, hws₃⟩

theorem whileFalse (hc : M.truth (cond.eval M σ) = false)
    (hkeep : ∀ x, x ∉ assigned body → σ₀ x = σ x) (hbody : Passable M body σ₀)
    (hrest : Passes M rest σ σ') : Passes M (.whileDo span cond body :: rest) σ σ' := by
  obtain ⟨ws₁, σ₁, htrav₁, hws₁⟩ := hbody
  obtain ⟨ws₂, htrav₂, hws₂⟩ := hrest
  exact ⟨_, .whileFalse hc hkeep htrav₁ htrav₂, List.forall_mem_append.mpr ⟨hws₁, hws₂⟩⟩

theorem whileTrue (hc : M.truth (cond.eval M σ) = true) (hbody : Passes M body σ σ₁)
    (hrest : Passes M rest σ₁ σ') : Passes M (.whileDo span cond body :: rest) σ σ' := by
  obtain ⟨ws₁, htrav₁, hws₁⟩ := hbody
  obtain ⟨ws₂, htrav₂, hws₂⟩ := hrest
  exact ⟨_, .whileTrue hc (fun _ _ => rfl) htrav₁ htrav₂,
    List.forall_mem_append.mpr ⟨hws₁, hws₂⟩⟩

end Passes

namespace Run

variable {M : Meaning String δ} {span : Span} {cond : Expr String} {t e body rest : Block}
  {σ σ' : Store δ} {vs : List δ}

theorem of_ifTrue (h : Run M (.ifElse span cond t e :: rest) σ vs σ')
    (hc : M.truth (cond.eval M σ) = true) :
    ∃ σ₁ vs₁ vs₂, vs = vs₁ ++ vs₂ ∧ Run M t σ vs₁ σ₁ ∧ Run M rest σ₁ vs₂ σ' := by
  cases h with
  | ifTrue _ ht hrest => exact ⟨_, _, _, rfl, ht, hrest⟩
  | ifFalse hc' _ _ => simp [hc] at hc'

theorem of_ifFalse (h : Run M (.ifElse span cond t e :: rest) σ vs σ')
    (hc : M.truth (cond.eval M σ) = false) :
    ∃ σ₁ vs₁ vs₂, vs = vs₁ ++ vs₂ ∧ Run M e σ vs₁ σ₁ ∧ Run M rest σ₁ vs₂ σ' := by
  cases h with
  | ifTrue hc' _ _ => simp [hc] at hc'
  | ifFalse _ he hrest => exact ⟨_, _, _, rfl, he, hrest⟩

theorem of_whileTrue (h : Run M (.whileDo span cond body :: rest) σ vs σ')
    (hc : M.truth (cond.eval M σ) = true) :
    ∃ σ₁ vs₁ vs₂, vs = vs₁ ++ vs₂ ∧ Run M body σ vs₁ σ₁ ∧
      Run M (.whileDo span cond body :: rest) σ₁ vs₂ σ' := by
  cases h with
  | whileFalse hc' _ => simp [hc] at hc'
  | whileTrue _ hbody hloop => exact ⟨_, _, _, rfl, hbody, hloop⟩

theorem of_whileFalse (h : Run M (.whileDo span cond body :: rest) σ vs σ')
    (hc : M.truth (cond.eval M σ) = false) : Run M rest σ vs σ' := by
  cases h with
  | whileFalse _ hrest => exact hrest
  | whileTrue hc' _ _ => simp [hc] at hc'

end Run

/-- If the assertions hold that a run meets, and can hold that it leaves out, the run is followed by
a traversal whose assertions hold. -/
theorem Run.exists_passing {M : Meaning String δ} {b : Block} {σ σ' : Store δ} {vs : List δ}
    (h : Run M b σ vs σ') (hvs : ∀ d ∈ vs, M.truth d = true) (hclear : Clear M b σ) :
    Passes M b σ σ' := by
  induction hclear generalizing vs σ' with
  | nil σ =>
    cases h
    exact ⟨[], .nil σ, hvs⟩
  | assign _ ih =>
    cases h with
    | assign hrest =>
      obtain ⟨ws, htrav, hws⟩ := ih hrest hvs
      exact ⟨ws, .assign htrav, hws⟩
  | check _ ih =>
    cases h with
    | check hrest =>
      rw [List.forall_mem_cons] at hvs
      exact .check hvs.1 (ih hrest hvs.2)
  | ifTrue hc hother _ hrun _ iht ihrest =>
    obtain ⟨σ₁, vs₁, vs₂, rfl, ht, hrest⟩ := h.of_ifTrue hc
    obtain ⟨rfl, rfl⟩ := hrun.unique ht
    rw [List.forall_mem_append] at hvs
    exact .ifTrue hc (iht ht hvs.1) hother (ihrest hrest hvs.2)
  | ifFalse hc hother _ hrun _ ihe ihrest =>
    obtain ⟨σ₁, vs₁, vs₂, rfl, he, hrest⟩ := h.of_ifFalse hc
    obtain ⟨rfl, rfl⟩ := hrun.unique he
    rw [List.forall_mem_append] at hvs
    exact .ifFalse hc hother (ihe he hvs.1) (ihrest hrest hvs.2)
  | whileFalse hc hkeep hother _ ih =>
    exact .whileFalse hc hkeep hother (ih (h.of_whileFalse hc) hvs)
  | whileNext hc hrun hc₁ _ ih =>
    obtain ⟨σ₁, vs₁, vs₂, rfl, hbody, hloop⟩ := h.of_whileTrue hc
    obtain ⟨rfl, rfl⟩ := hrun.unique hbody
    obtain ⟨ws, htrav, hws⟩ := ih hloop (List.forall_mem_append.mp hvs).2
    exact ⟨ws, htrav.whileDo_earlier hc hc₁ fun x hx => hbody.unassigned hx, hws⟩
  | whileLast hc _ hrun hc₁ _ ihbody ihrest =>
    obtain ⟨σ₁, vs₁, vs₂, rfl, hbody, hloop⟩ := h.of_whileTrue hc
    obtain ⟨rfl, rfl⟩ := hrun.unique hbody
    rw [List.forall_mem_append] at hvs
    exact .whileTrue hc (ihbody hbody hvs.1) (ihrest (hloop.of_whileFalse hc₁) hvs.2)
  | forDo _ ih =>
    cases h with
    | forDo h =>
      obtain ⟨ws, htrav, hws⟩ := ih h hvs
      exact ⟨ws, .forDo htrav, hws⟩

end Block

end WhileSmt
