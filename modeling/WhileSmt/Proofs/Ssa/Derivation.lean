import WhileSmt.Proofs.Program
import WhileSmt.Proofs.Ssa.Step

/-!
Numbering as a relation with one rule for every form of statement, so that a property of numbered
programs is proved by going through the rules.

Main statements: every rule makes a step (`Block.Numbers.step`), the rules describe the numbering of
blocks (`Block.Numbers.number_eq`), and they apply to every block whose unknown names have not been
numbered (`Block.exists_numbers`). Hence every program has a single-assignment form
(`Program.exists_toSsa`).
-/

namespace WhileSmt

open Scope

namespace Block

/-! ## The names that a loop carries -/

/-- The names that a loop carries: its body assigns them, and they are known before it. -/
def carried (body : Block) (s : Scope) : List String :=
  (assignedNames body).filter s.env.contains

theorem mem_carried {body : Block} {s : Scope} {x : String} :
    x ∈ carried body s ↔ x ∈ assigned body ∧ s.env.get? x ≠ none := by
  simp [carried, assignedNames, NameMap.contains, Option.isSome_iff_ne_none]

theorem nodup_carried (body : Block) (s : Scope) : (carried body s).Nodup :=
  ((pairwise_sortNames _).imp fun h => (ne_of_gt_name h).symm).sublist List.filter_sublist

/-! ## The rules -/

/-- The rules of numbering: a block and the scope before it, the code and the scope after it. -/
inductive Numbers : Block → Scope → Code → Scope → Prop where
  | nil (s : Scope) : Numbers [] s [] s
  | assign {span : Span} {a : Assignment} {rest : Block} {s s₁ s' : Scope} {more : Code} :
      s.claim a.value.names = .ok s₁ → Numbers rest (s₁.advance a.target) more s' →
      Numbers (.assign span a :: rest) s
        (.define { base := a.target, number := s₁.nextNumber a.target } (s₁.resolve a.value) ::
          more) s'
  | check {span : Span} {cond : Expr String} {rest : Block} {s s₁ s' : Scope} {more : Code} :
      s.claim cond.names = .ok s₁ → Numbers rest s₁ more s' →
      Numbers (.check span cond :: rest) s (.check (s₁.resolve cond) :: more) s'
  | ifElse {span : Span} {cond : Expr String} {t e rest : Block}
      {s s₁ first second joined s' : Scope} {thenCode elseCode joins more : Code} :
      s.claim (Stmt.ifElse span cond t e).readNames = .ok s₁ → Numbers t s₁ thenCode first →
      Numbers e { env := s₁.env, next := first.next } elseCode second →
      joinArms (s₁.resolve cond) first.env second.env.toList
        { env := first.env, next := second.next } = (joins, joined) →
      Numbers rest joined more s' →
      Numbers (.ifElse span cond t e :: rest) s (thenCode ++ elseCode ++ joins ++ more) s'
  | whileDo {span : Span} {cond : Expr String} {body rest : Block}
      {s s₁ after final s' : Scope} {code exits more : Code} :
      s.claim (Stmt.whileDo span cond body).readNames = .ok s₁ →
      Numbers body (s₁.advanceAll (carried body s₁)) code after →
      exitJoins (.unary .not (s₁.resolve cond)) after.env s₁.env.toList after =
        .ok (exits, final) →
      Numbers rest final more s' →
      Numbers (.whileDo span cond body :: rest) s
        (code ++ s₁.entryCode after (carried body s₁) ++ exits ++ more) s'
  | forDo {span : Span} {init update : Assignment} {cond : Expr String} {body rest : Block}
      {s s' : Scope} {code : Code} :
      Numbers (counting span init cond update body ++ rest) s code s' →
      Numbers (.forDo span init cond update body :: rest) s code s'

/-- The numbering of two blocks in sequence meets a scope between them. -/
theorem Numbers.split {b₁ b₂ : Block} {s s' : Scope} {code : Code}
    (h : Numbers (b₁ ++ b₂) s code s') :
    ∃ c₁ s₁ c₂, Numbers b₁ s c₁ s₁ ∧ Numbers b₂ s₁ c₂ s' ∧ code = c₁ ++ c₂ := by
  generalize hb : b₁ ++ b₂ = b at h
  induction h generalizing b₁ with
  | nil s =>
    obtain ⟨rfl, rfl⟩ := List.append_eq_nil_iff.mp hb
    exact ⟨[], s, [], .nil s, .nil s, rfl⟩
  | @assign span a rest s s₁ s' more hclaim h ih =>
    rcases List.append_eq_cons_iff.mp hb with ⟨rfl, rfl⟩ | ⟨b₃, rfl, rfl⟩
    · exact ⟨[], s, _, .nil s, .assign hclaim h, rfl⟩
    · obtain ⟨c₁, s₂, c₂, h₁, h₂, rfl⟩ := ih rfl
      exact ⟨_, s₂, c₂, .assign hclaim h₁, h₂, rfl⟩
  | @check span cond rest s s₁ s' more hclaim h ih =>
    rcases List.append_eq_cons_iff.mp hb with ⟨rfl, rfl⟩ | ⟨b₃, rfl, rfl⟩
    · exact ⟨[], s, _, .nil s, .check hclaim h, rfl⟩
    · obtain ⟨c₁, s₂, c₂, h₁, h₂, rfl⟩ := ih rfl
      exact ⟨_, s₂, c₂, .check hclaim h₁, h₂, rfl⟩
  | @ifElse span cond t e rest s s₁ first second joined s' thenCode elseCode joins more hclaim ht he
      hjoin h _ _ ih =>
    rcases List.append_eq_cons_iff.mp hb with ⟨rfl, rfl⟩ | ⟨b₃, rfl, rfl⟩
    · exact ⟨[], s, _, .nil s, .ifElse hclaim ht he hjoin h, rfl⟩
    · obtain ⟨c₁, s₂, c₂, h₁, h₂, rfl⟩ := ih rfl
      exact ⟨_, s₂, c₂, .ifElse hclaim ht he hjoin h₁, h₂, (List.append_assoc ..).symm⟩
  | @whileDo span cond body rest s s₁ after final s' code exits more hclaim hbody hexit h _ ih =>
    rcases List.append_eq_cons_iff.mp hb with ⟨rfl, rfl⟩ | ⟨b₃, rfl, rfl⟩
    · exact ⟨[], s, _, .nil s, .whileDo hclaim hbody hexit h, rfl⟩
    · obtain ⟨c₁, s₂, c₂, h₁, h₂, rfl⟩ := ih rfl
      exact ⟨_, s₂, c₂, .whileDo hclaim hbody hexit h₁, h₂, (List.append_assoc ..).symm⟩
  | @forDo span init update cond body rest s s' code h ih =>
    rcases List.append_eq_cons_iff.mp hb with ⟨rfl, rfl⟩ | ⟨b₃, rfl, rfl⟩
    · exact ⟨[], s, _, .nil s, .forDo h, rfl⟩
    · obtain ⟨c₁, s₂, c₂, h₁, h₂, rfl⟩ :=
        @ih (counting span init cond update body ++ b₃) (List.append_assoc ..)
      exact ⟨c₁, s₂, c₂, .forDo h₁, h₂, rfl⟩

/-- The numbering of a block goes on with that of another from the scope it ends in. -/
theorem Numbers.append {b₁ b₂ : Block} {s s₁ s' : Scope} {c₁ c₂ : Code} (h₁ : Numbers b₁ s c₁ s₁)
    (h₂ : Numbers b₂ s₁ c₂ s') : Numbers (b₁ ++ b₂) s (c₁ ++ c₂) s' := by
  induction h₁ with
  | nil s => exact h₂
  | assign hclaim _ ih => exact .assign hclaim (ih h₂)
  | check hclaim _ ih => exact .check hclaim (ih h₂)
  | ifElse hclaim ht he hjoin _ _ _ ih =>
    rw [List.append_assoc]
    exact .ifElse hclaim ht he hjoin (ih h₂)
  | whileDo hclaim hbody hexit _ _ ih =>
    rw [List.append_assoc]
    exact .whileDo hclaim hbody hexit (ih h₂)
  | @forDo span init update cond body rest s s₁ code _ ih =>
    have hnum := ih h₂
    rw [List.append_assoc] at hnum
    exact .forDo hnum

theorem meets_of_joinArms {guard : Expr Version} {first second joined : Scope} {joins : Code}
    (h : joinArms guard first.env second.env.toList { env := first.env, next := second.next } =
      (joins, joined)) : Meets guard first.env second joins joined := by
  have hmeets := joinArms_meets guard first.env second
  rw [h] at hmeets
  exact hmeets

/-- A body keeps every name known, so the joins at the exit of its loop exist. -/
theorem exists_exitJoins {w r : List String} {s after : Scope} {names : List String} {code : Code}
    (guard : Expr Version) (hnodup : names.Nodup)
    (hbody : Step w r (s.advanceAll names) code after) :
    ∃ exits final, exitJoins guard after.env s.env.toList after = .ok (exits, final) ∧
      Meets guard s.env after exits final := by
  refine exitJoins_meets guard ?_
  intro x hx
  refine (hbody.known x).mpr (.inl ?_)
  rw [env_advanceAll hnodup]
  split
  · exact Option.some_ne_none _
  · exact hx

theorem meets_of_exitJoins {w r : List String} {s after final : Scope} {names : List String}
    {code exits : Code} {guard : Expr Version} (hnodup : names.Nodup)
    (hbody : Step w r (s.advanceAll names) code after)
    (h : exitJoins guard after.env s.env.toList after = .ok (exits, final)) :
    Meets guard s.env after exits final := by
  obtain ⟨exits', final', h', hmeets⟩ := exists_exitJoins guard hnodup hbody
  rw [h] at h'
  cases h'
  exact hmeets

theorem exists_claim_readNames {s : Scope} {stmt : Stmt}
    (h : ∀ x ∈ stmt.reads, s.env.get? x = none → s.next.get? x = none) :
    ∃ s₁, s.claim stmt.readNames = .ok s₁ :=
  exists_claim fun x hx => h x (mem_sortNames.mp hx)

/-- A claim makes all names known that the claimed statement reads. -/
theorem known_of_claim {s s₁ : Scope} {stmt : Stmt} (h : s.claim stmt.readNames = .ok s₁) :
    ∀ x ∈ stmt.reads, s₁.env.get? x ≠ none := by
  intro x hx
  refine (claims_of_claim h).env_ne_none.mpr (.inr ?_)
  rw [Stmt.readNames, mem_sortNames]
  exact hx

/-- The parts of a numbered branch. Its arms are steps from a scope in which all names are known
that it reads, and the two paths meet after them. -/
structure Branch (cond : Expr String) (t e : Block) (s : Scope) (thenCode : Code) (first : Scope)
    (elseCode : Code) (second : Scope) (joins : Code) (joined : Scope) : Prop where
  valid : s.Valid
  known : ∀ x ∈ cond.names ++ reads t ++ reads e, s.env.get? x ≠ none
  thenStep : Step (assigned t) (reads t) s thenCode first
  elseValid : Valid { env := s.env, next := first.next }
  elseStep : Step (assigned e) (reads e) { env := s.env, next := first.next } elseCode second
  meets : Meets (s.resolve cond) first.env second joins joined

namespace Branch

variable {cond : Expr String} {t e : Block} {s s₁ first second joined : Scope}
  {thenCode elseCode joins : Code}

theorem of_claim {span : Span} (hv : s.Valid)
    (hclaim : s.claim (Stmt.ifElse span cond t e).readNames = .ok s₁)
    (ht : s₁.Valid → Step (assigned t) (reads t) s₁ thenCode first)
    (he : Valid { env := s₁.env, next := first.next } →
      Step (assigned e) (reads e) { env := s₁.env, next := first.next } elseCode second)
    (hjoin : joinArms (s₁.resolve cond) first.env second.env.toList
      { env := first.env, next := second.next } = (joins, joined)) :
    Branch cond t e s₁ thenCode first elseCode second joins joined := by
  have hv₁ := (claims_of_claim hclaim).valid hv
  have hstep := ht hv₁
  have hv₂ : Valid { env := s₁.env, next := first.next } := hv₁.mono rfl hstep.within.le
  exact ⟨hv₁, known_of_claim hclaim, hstep, hv₂, he hv₂, meets_of_joinArms hjoin⟩

theorem known_cond (h : Branch cond t e s thenCode first elseCode second joins joined) :
    ∀ x ∈ cond.names, s.env.get? x ≠ none := fun x hx =>
  h.known x (List.mem_append_left _ (List.mem_append_left _ hx))

theorem step (h : Branch cond t e s thenCode first elseCode second joins joined) :
    Step (assigned t ++ assigned e) (reads t ++ reads e) s (thenCode ++ elseCode ++ joins)
      joined :=
  Step.ifElse h.thenStep h.elseStep h.meets h.valid h.known_cond

end Branch

/-- The parts of a numbered loop. Its body is a step from the scope in which the names that the loop
carries have new versions, and the paths around the loop and through it meet after it. -/
structure Loop (cond : Expr String) (body : Block) (s : Scope) (code : Code) (after : Scope)
    (exits : Code) (final : Scope) : Prop where
  valid : s.Valid
  known : ∀ x ∈ cond.names ++ reads body, s.env.get? x ≠ none
  bodyStep : Step (assigned body) (reads body) (s.advanceAll (carried body s)) code after
  meets : Meets (.unary .not (s.resolve cond)) s.env after exits final

namespace Loop

variable {cond : Expr String} {body : Block} {s s₁ after final : Scope} {code exits : Code}

theorem of_claim {span : Span} (hv : s.Valid)
    (hclaim : s.claim (Stmt.whileDo span cond body).readNames = .ok s₁)
    (hbody : (s₁.advanceAll (carried body s₁)).Valid →
      Step (assigned body) (reads body) (s₁.advanceAll (carried body s₁)) code after)
    (hexit : exitJoins (.unary .not (s₁.resolve cond)) after.env s₁.env.toList after =
      .ok (exits, final)) :
    Loop cond body s₁ code after exits final := by
  have hv₁ := (claims_of_claim hclaim).valid hv
  have hstep := hbody (hv₁.advanceAll _)
  exact ⟨hv₁, known_of_claim hclaim, hstep,
    meets_of_exitJoins (nodup_carried body s₁) hstep hexit⟩

theorem known_cond (h : Loop cond body s code after exits final) :
    ∀ x ∈ cond.names, s.env.get? x ≠ none := fun x hx => h.known x (List.mem_append_left _ hx)

theorem within_body (h : Loop cond body s code after exits final) :
    Code.Within s.nextNumber after.nextNumber (code ++ s.entryCode after (carried body s)) :=
  Step.within_body h.valid (nodup_carried body s) (fun _ hx => (mem_carried.mp hx).2) h.bodyStep

theorem step (h : Loop cond body s code after exits final) :
    Step (assigned body) (reads body) s
      (code ++ s.entryCode after (carried body s) ++ exits) final :=
  Step.whileDo (nodup_carried body s) (fun _ => mem_carried) h.bodyStep h.meets h.valid h.known_cond

end Loop

/-- Numbering a block is a step that writes and reads what the block does. -/
theorem Numbers.step {b : Block} {s s' : Scope} {code : Code} (h : Numbers b s code s')
    (hv : s.Valid) : Step (assigned b) (reads b) s code s' := by
  induction h with
  | nil s => exact .nil hv
  | @assign span a rest s s₁ s' more hclaim _ ih =>
    have hclaims := claims_of_claim hclaim
    have hdef := Step.define (hclaims.valid hv) a.target fun x hx =>
      hclaims.env_ne_none.mpr (.inr hx)
    refine ((Step.claims hclaims hv).trans (hdef.trans (ih hdef.valid))).congr ?_ ?_
    · simp [assigned, Stmt.assigned]
    · simp [reads, Stmt.reads]
  | @check span cond rest s s₁ s' more hclaim _ ih =>
    have hclaims := claims_of_claim hclaim
    have hcheck := Step.check (hclaims.valid hv) fun x hx => hclaims.env_ne_none.mpr (.inr hx)
    refine ((Step.claims hclaims hv).trans (hcheck.trans (ih hcheck.valid))).congr ?_ ?_
    · simp [assigned, Stmt.assigned]
    · simp [reads, Stmt.reads]
  | ifElse hclaim _ _ hjoin _ iht ihe ihrest =>
    have hbranch := Branch.of_claim hv hclaim iht ihe hjoin
    refine ((Step.claims (claims_of_claim hclaim) hv).trans
      (hbranch.step.trans (ihrest hbranch.step.valid))).congr ?_ ?_
    · simp [assigned, Stmt.assigned]
    · intro x
      simp only [reads, Stmt.reads, Stmt.readNames, List.mem_append, mem_sortNames]
      grind
  | whileDo hclaim _ hexit _ ihbody ihrest =>
    have hloop := Loop.of_claim hv hclaim ihbody hexit
    refine ((Step.claims (claims_of_claim hclaim) hv).trans
      (hloop.step.trans (ihrest hloop.step.valid))).congr ?_ ?_
    · simp [assigned, Stmt.assigned]
    · intro x
      simp only [reads, Stmt.reads, Stmt.readNames, List.mem_append, mem_sortNames]
      grind
  | forDo _ ih =>
    exact (ih hv).congr (fun _ => mem_assigned_forDo.symm) fun _ => mem_reads_forDo.symm

/-! ## The rules and the numbering of blocks -/

/-- A body hands out a new version of every name that it assigns, so a loop has a join at its entry
for every name that it carries. -/
theorem entryJoins_eq {r : List String} {s after : Scope} {body : Block} {code : Code}
    (hbody : Step (assigned body) r (s.advanceAll (carried body s)) code after) :
    entryJoins s.env (s.advanceAll (carried body s)).env after.env (carried body s) =
      .ok (s.entryCode after (carried body s)) := by
  -- the names still to be joined shrink, those that the loop carries stay the same
  have hwalk : ∀ names : List String, (∀ x ∈ names, x ∈ carried body s) →
      entryJoins s.env (s.advanceAll (carried body s)).env after.env names =
        .ok (s.entryCode after names) := by
    intro names hsub
    induction names with
    | nil => rfl
    | cons x rest ih =>
      have hx := hsub x List.mem_cons_self
      obtain ⟨hassigned, hknown⟩ := mem_carried.mp hx
      obtain ⟨a, ha⟩ := Option.ne_none_iff_exists'.mp hknown
      obtain ⟨b, hb, hle⟩ := hbody.env_of_written hassigned
      rw [nextNumber_advanceAll (nodup_carried body s), if_pos hx] at hle
      have hentered : (s.advanceAll (carried body s)).env.get? x = some (s.nextNumber x) := by
        rw [env_advanceAll (nodup_carried body s), if_pos hx]
      have hne : b ≠ s.nextNumber x := by omega
      simp only [entryJoins, versionOf, hentered, ha, hb, if_neg hne, bind, Except.bind, pure,
        Except.pure, ih fun y hy => hsub y (List.mem_cons_of_mem _ hy)]
      simp [entryCode, current_of_get? ha, current_of_get? hb]
  exact hwalk _ fun _ hx => hx

/-- The rules describe the numbering of blocks. -/
theorem Numbers.number_eq {b : Block} {s s' : Scope} {code : Code} (h : Numbers b s code s')
    (hv : s.Valid) : number b s = .ok (code, s') := by
  induction h with
  | nil s => rfl
  | @assign span a rest s s₁ s' more hclaim _ ih =>
    have hv₁ := (claims_of_claim hclaim).valid hv
    simp only [number_cons, Stmt.number, Assignment.number, hclaim, ih (hv₁.advance _), bind,
      Except.bind, pure, Except.pure, List.cons_append, List.nil_append]
  | @check span cond rest s s₁ s' more hclaim _ ih =>
    have hv₁ := (claims_of_claim hclaim).valid hv
    simp only [number_cons, Stmt.number, hclaim, ih hv₁, bind, Except.bind, pure, Except.pure,
      List.cons_append, List.nil_append]
  | ifElse hclaim ht he hjoin hrest iht ihe ihrest =>
    have hbranch := Branch.of_claim hv hclaim ht.step he.step hjoin
    simp only [number_cons, Stmt.number, hclaim, claim_known hbranch.known_cond, iht hbranch.valid,
      ihe hbranch.elseValid, hjoin, ihrest hbranch.step.valid, bind, Except.bind, pure,
      Except.pure]
  | whileDo hclaim hbody hexit hrest ihbody ihrest =>
    have hloop := Loop.of_claim hv hclaim hbody.step hexit
    have hnumber := ihbody (hloop.valid.advanceAll _)
    have hentry := entryJoins_eq hloop.bodyStep
    unfold carried at hnumber hentry
    simp only [number_cons, Stmt.number, numberLoop, hclaim, claim_known hloop.known_cond, hnumber,
      hentry, hexit, ihrest hloop.step.valid, bind, Except.bind, pure, Except.pure, carried]
  | forDo _ ih => rw [number_forDo, ih hv]

/-- Every block can be numbered in a valid scope in which the unknown names that it reads have not
been numbered either. -/
theorem exists_numbers {b : Block} {s : Scope} (hv : s.Valid)
    (hunused : ∀ x ∈ reads b, s.env.get? x = none → s.next.get? x = none) :
    ∃ code s', Numbers b s code s' := by
  induction b using inductionOn generalizing s with
  | nil => exact ⟨[], s, .nil s⟩
  | assign span a rest ih =>
    simp only [reads, Stmt.reads, List.mem_append] at hunused
    obtain ⟨s₁, hclaim⟩ := exists_claim fun x hx => hunused x (.inl hx)
    have hclaims := claims_of_claim hclaim
    have hdef := Step.define (hclaims.valid hv) a.target fun x hx =>
      hclaims.env_ne_none.mpr (.inr hx)
    have hstep := (Step.claims hclaims hv).trans hdef
    obtain ⟨more, s', hrest⟩ := ih hdef.valid fun x hx =>
      hstep.next_of_unknown (hunused x (.inr hx))
    exact ⟨_, s', .assign hclaim hrest⟩
  | check span cond rest ih =>
    simp only [reads, Stmt.reads, List.mem_append] at hunused
    obtain ⟨s₁, hclaim⟩ := exists_claim fun x hx => hunused x (.inl hx)
    have hclaims := claims_of_claim hclaim
    obtain ⟨more, s', hrest⟩ := ih (hclaims.valid hv) fun x hx =>
      (Step.claims hclaims hv).next_of_unknown (hunused x (.inr hx))
    exact ⟨_, s', .check hclaim hrest⟩
  | ifElse span cond t e rest iht ihe ihrest =>
    rw [reads] at hunused
    obtain ⟨s₁, hclaim⟩ := exists_claim_readNames fun x hx =>
      hunused x (List.mem_append_left _ hx)
    have hclaims := claims_of_claim hclaim
    have hv₁ := hclaims.valid hv
    -- whatever the arms read is known before the first of them
    have hknown := known_of_claim hclaim
    simp only [Stmt.reads, List.mem_append] at hknown
    obtain ⟨thenCode, first, ht⟩ := iht hv₁ fun x hx h =>
      absurd h (hknown x (.inl (.inr hx)))
    have hv₂ : Valid { env := s₁.env, next := first.next } :=
      hv₁.mono rfl (ht.step hv₁).within.le
    obtain ⟨elseCode, second, he⟩ := ihe hv₂ fun x hx h => absurd h (hknown x (.inr hx))
    have hbranch := Branch.of_claim hv hclaim ht.step he.step rfl
    obtain ⟨more, s', hrest⟩ := ihrest hbranch.step.valid fun x hx =>
      ((Step.claims hclaims hv).trans hbranch.step).next_of_unknown
        (hunused x (List.mem_append_right _ hx))
    exact ⟨_, s', .ifElse hclaim ht he rfl hrest⟩
  | whileDo span cond body rest ihbody ihrest =>
    rw [reads] at hunused
    obtain ⟨s₁, hclaim⟩ := exists_claim_readNames fun x hx =>
      hunused x (List.mem_append_left _ hx)
    have hclaims := claims_of_claim hclaim
    have hv₁ := hclaims.valid hv
    have hknown := known_of_claim hclaim
    simp only [Stmt.reads, List.mem_append] at hknown
    have hnodup := nodup_carried body s₁
    obtain ⟨code, after, hbody⟩ := ihbody (hv₁.advanceAll (carried body s₁)) fun x hx h => by
      rw [env_advanceAll hnodup] at h
      split at h
      · cases h
      · exact absurd h (hknown x (.inr hx))
    obtain ⟨exits, final, hexit, -⟩ := exists_exitJoins (.unary .not (s₁.resolve cond)) hnodup
      (hbody.step (hv₁.advanceAll _))
    have hloop := Loop.of_claim hv hclaim hbody.step hexit
    obtain ⟨more, s', hrest⟩ := ihrest hloop.step.valid fun x hx =>
      ((Step.claims hclaims hv).trans hloop.step).next_of_unknown
        (hunused x (List.mem_append_right _ hx))
    exact ⟨_, s', .whileDo hclaim hbody hexit hrest⟩
  | forDo span init cond update body rest ih =>
    obtain ⟨code, s', h⟩ := ih hv fun x hx => hunused x (mem_reads_forDo.mpr hx)
    exact ⟨code, s', .forDo h⟩

end Block

/-! ## Programs -/

theorem firstRepeat?_eq_none_iff {α : Type} [DecidableEq α] {seen l : List α} :
    firstRepeat? seen l = none ↔ l.Nodup ∧ ∀ x ∈ l, x ∉ seen := by
  induction l generalizing seen with
  | nil => simp [firstRepeat?]
  | cons x rest ih =>
    rw [firstRepeat?]
    by_cases hx : x ∈ seen
    · simp [hx]
    · rw [if_neg hx, ih, List.nodup_cons]
      simp only [List.mem_cons, not_or]
      grind

/-- The check for single assignment accepts exactly the lists that define every version once. -/
theorem Code.checkSingle_eq_ok_iff {code : Code} :
    Code.checkSingle code = .ok () ↔ (Code.defined code).Nodup := by
  have hnone : redefined? code = none ↔ (defined code).Nodup := by
    simp [redefined?, firstRepeat?_eq_none_iff]
  rw [← hnone, checkSingle]
  cases redefined? code with
  | none => simp
  | some version => simp

/-- Every program can be numbered, and the result passes the check for single assignment. -/
theorem Program.exists_toSsa (p : Program) :
    ∃ code s, Block.Numbers p.statements {} code s ∧
      p.toSsa = .ok { code, finals := s.env.mapValues fun base number => { base, number } } := by
  obtain ⟨code, s, h⟩ := Block.exists_numbers (b := p.statements) valid_empty fun _ _ _ => rfl
  refine ⟨code, s, h, ?_⟩
  have hnodup := (h.step valid_empty).within.nodup
  simp only [toSsa, h.number_eq valid_empty, Code.checkSingle_eq_ok_iff.mpr hnodup, bind,
    Except.bind, pure, Except.pure]

end WhileSmt
