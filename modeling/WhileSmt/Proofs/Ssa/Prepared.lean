import WhileSmt.Proofs.Ssa.Derivation

/-!
Prepared programs. A name that is assigned for the first time in one arm of a branch, or in the body
of a loop, has no version to be joined with where the paths meet. A block is prepared if this never
happens: whatever a branch or a loop assigns is known when its numbering begins.

Main statements: preparation of a sequence (`Block.prepared_append`) and of a counting loop
(`Block.prepared_forDo`).
-/

namespace WhileSmt

/-- A test of the result of a part of the numbering; it holds where there is no result. -/
def ifNumbered {α : Type} (result : Except NumberingError α) (test : α → Bool) : Bool :=
  match result with
  | .ok a => test a
  | .error _ => true

@[simp] theorem ifNumbered_ok {α : Type} (a : α) (test : α → Bool) :
    ifNumbered (.ok a) test = test a := rfl

@[simp] theorem ifNumbered_pure {α : Type} (a : α) (test : α → Bool) :
    ifNumbered (pure a) test = test a := rfl

@[simp] theorem ifNumbered_bind {α β : Type} (result : Except NumberingError α)
    (f : α → Except NumberingError β) (test : β → Bool) :
    ifNumbered (result >>= f) test = ifNumbered result fun a => ifNumbered (f a) test := by
  cases result with
  | ok a => rfl
  | error e => rfl

@[simp] theorem ifNumbered_true {α : Type} (result : Except NumberingError α) :
    ifNumbered result (fun _ => true) = true := by
  cases result with
  | ok a => rfl
  | error e => rfl

theorem ifNumbered_and {α : Type} (result : Except NumberingError α) (test₁ test₂ : α → Bool) :
    ifNumbered result (fun a => test₁ a && test₂ a) =
      (ifNumbered result test₁ && ifNumbered result test₂) := by
  cases result with
  | ok a => rfl
  | error e => rfl

mutual

/-- Every branch and every loop assigns only names that are known when its numbering begins, which
is after the names that it reads have been claimed. -/
def Stmt.prepared : Stmt → Scope → Bool
  | .assign .., _ => true
  | .check .., _ => true
  | .ifElse span cond t e, s =>
    ifNumbered (s.claim (Stmt.ifElse span cond t e).readNames) fun s₁ =>
      (Block.assigned t ++ Block.assigned e).all s₁.env.contains && Block.prepared t s₁ &&
        ifNumbered (Block.number t s₁) fun first =>
          Block.prepared e { env := s₁.env, next := first.2.next }
  | .whileDo span cond body, s =>
    ifNumbered (s.claim (Stmt.whileDo span cond body).readNames) fun s₁ =>
      (Block.assigned body).all s₁.env.contains &&
        Block.prepared body (s₁.advanceAll (Block.carried body s₁))
  | .forDo span init cond update body, s =>
    ifNumbered (init.number s) fun start =>
      ifNumbered (start.2.claim (Stmt.whileDo span cond (body ++ [.assign span update])).readNames)
        fun s₁ =>
          (Block.assigned (body ++ [.assign span update])).all s₁.env.contains &&
            Block.prepared body
              (s₁.advanceAll (Block.carried (body ++ [.assign span update]) s₁))

/-- Every statement of a block is prepared in the scope that it is numbered in. -/
def Block.prepared : List Stmt → Scope → Bool
  | [], _ => true
  | stmt :: rest, s =>
    stmt.prepared s && ifNumbered (stmt.number s) fun next => Block.prepared rest next.2

end

/-- A program that is prepared when its numbering begins with nothing known. -/
def Program.prepared (p : Program) : Bool :=
  Block.prepared p.statements {}

namespace Block

theorem prepared_append (b₁ b₂ : Block) (s : Scope) :
    prepared (b₁ ++ b₂) s =
      (prepared b₁ s && ifNumbered (number b₁ s) fun next => prepared b₂ next.2) := by
  induction b₁ generalizing s with
  | nil => simp [prepared, number_nil]
  | cons stmt rest ih =>
    simp only [List.cons_append, prepared, ih, ifNumbered_and, number_cons, ifNumbered_bind,
      ifNumbered_pure, Bool.and_assoc]

/-- A counting loop is prepared if the statements are that it stands for. -/
theorem prepared_forDo (span : Span) (init : Assignment) (cond : Expr String)
    (update : Assignment) (body rest : Block) (s : Scope) :
    prepared (.forDo span init cond update body :: rest) s =
      prepared (counting span init cond update body ++ rest) s := by
  have hbody : ∀ s₁ : Scope, prepared (body ++ [.assign span update]) s₁ = prepared body s₁ := by
    intro s₁
    rw [prepared_append]
    simp only [prepared, Stmt.prepared, ifNumbered_true, Bool.and_true]
  rw [counting, List.cons_append, List.cons_append, List.nil_append]
  simp only [prepared, Stmt.prepared, hbody, stmt_number_forDo, ifNumbered_bind, ifNumbered_pure,
    Bool.true_and, ← ifNumbered_and]
  rfl

/-- After a numbered block, the rest of a prepared sequence is prepared. -/
theorem prepared_of_append {b₁ b₂ : Block} {s s₁ : Scope} {code : Code}
    (h : prepared (b₁ ++ b₂) s = true) (hv : s.Valid) (hnum : Numbers b₁ s code s₁) :
    prepared b₁ s = true ∧ prepared b₂ s₁ = true := by
  rw [prepared_append, hnum.number_eq hv, ifNumbered_ok, Bool.and_eq_true] at h
  exact h

theorem prepared_of_cons {stmt : Stmt} {rest : Block} {s s₁ : Scope} {code : Code}
    (h : prepared (stmt :: rest) s = true) (hv : s.Valid) (hnum : Numbers [stmt] s code s₁) :
    stmt.prepared s = true ∧ prepared rest s₁ = true := by
  have hstmt : prepared [stmt] s = stmt.prepared s := by
    simp only [prepared, ifNumbered_true, Bool.and_true]
  rw [← hstmt]
  exact @prepared_of_append [stmt] rest s s₁ code h hv hnum

/-- A test of all names of a list for being known. -/
theorem known_of_all {names : List String} {s : Scope}
    (h : names.all s.env.contains = true) : ∀ x ∈ names, s.env.get? x ≠ none := by
  intro x hx
  exact Option.isSome_iff_ne_none.mp (List.all_eq_true.mp h x hx)

theorem prepared_ifElse {span : Span} {cond : Expr String} {t e : Block} {s s₁ first : Scope}
    {code : Code} (h : (Stmt.ifElse span cond t e).prepared s = true)
    (hclaim : s.claim (Stmt.ifElse span cond t e).readNames = .ok s₁)
    (ht : number t s₁ = .ok (code, first)) :
    (∀ x ∈ assigned t ++ assigned e, s₁.env.get? x ≠ none) ∧ prepared t s₁ = true ∧
      prepared e { env := s₁.env, next := first.next } = true := by
  simp only [Stmt.prepared, hclaim, ht, ifNumbered_ok, Bool.and_eq_true] at h
  exact ⟨known_of_all h.1.1, h.1.2, h.2⟩

theorem prepared_whileDo {span : Span} {cond : Expr String} {body : Block} {s s₁ : Scope}
    (h : (Stmt.whileDo span cond body).prepared s = true)
    (hclaim : s.claim (Stmt.whileDo span cond body).readNames = .ok s₁) :
    (∀ x ∈ assigned body, s₁.env.get? x ≠ none) ∧
      prepared body (s₁.advanceAll (carried body s₁)) = true := by
  simp only [Stmt.prepared, hclaim, ifNumbered_ok, Bool.and_eq_true] at h
  exact ⟨known_of_all h.1, h.2⟩

end Block

end WhileSmt
