import Mathlib.Data.List.Sort
import WhileSmt.Proofs.Ssa.Definitions

/-!
Where joins stand. Numbering compares versions: it joins a name if two paths arrive with different
ones. But a path arrives with a new version of a name if and only if it assigns the name, so which
names are joined can be read off the program: after a branch those that one of the arms assigns and
both arms know, and after a loop those that the body assigns and that are known before.

Main statements: the joins of two paths as one list (`Scope.Meets.code_eq`), the names that differ
after a branch and after a loop (`Block.Branch.differ_iff`, `Block.Loop.differ_iff`), and the joins
of a whole program, which are those that its statements need and no others
(`Program.joins_placed`).
-/

namespace WhileSmt

open Scope

/-! ## The joins of two paths -/

/-- A join for every name of a list, of its versions at the ends of two paths. -/
def joinsOf (names : List String) (result : String → Nat) (one two : Scope)
    (guard : Option (Expr Version)) : Code :=
  names.map fun x =>
    .join { base := x, number := result x } [one.current x, two.current x] guard

/-- A name with different versions at the ends of two paths. -/
def Scope.Differ (one two : Scope) (x : String) : Prop :=
  ∃ a b, one.env.get? x = some a ∧ two.env.get? x = some b ∧ a ≠ b

theorem Scope.Differ.known {one two : Scope} {x : String} (h : one.Differ two x) :
    one.env.get? x ≠ none ∧ two.env.get? x ≠ none := by
  obtain ⟨a, b, ha, hb, -⟩ := h
  exact ⟨ha ▸ Option.some_ne_none a, hb ▸ Option.some_ne_none b⟩

theorem Scope.joinAt?_of_differ {guard : Expr Version} {one two : Scope} {x : String}
    (h : one.Differ two x) : joinAt? guard one.env two x =
      some (.join { base := x, number := two.nextNumber x } [one.current x, two.current x]
        (some guard)) := by
  obtain ⟨a, b, ha, hb, hab⟩ := h
  simp [joinAt?, joinPair?, ha, hb, hab, current_of_get? ha, current_of_get? hb]

theorem Scope.joinAt?_of_not_differ {guard : Expr Version} {one two : Scope} {x : String}
    (h : ¬ one.Differ two x) : joinAt? guard one.env two x = none := by
  unfold joinAt? joinPair?
  cases ha : one.env.get? x with
  | none => rfl
  | some a =>
    cases hb : two.env.get? x with
    | none => rfl
    | some b =>
      have hab : a = b := Classical.byContradiction fun hab => h ⟨a, b, ha, hb, hab⟩
      simp [hab]

/-- Where two paths meet there is one join for every name on which they differ, in the order of the
names. -/
theorem Scope.Meets.code_eq {guard : Expr Version} {one s s' : Scope} {code : Code}
    (h : Meets guard one.env s code s') {names : List String} (hsorted : names.Pairwise (· < ·))
    (hnames : ∀ x, x ∈ names ↔ one.Differ s x) :
    code = joinsOf names s.nextNumber one s (some guard) := by
  obtain ⟨keys, hkeys, rfl, hcomplete⟩ := h.code
  have hfilter : keys.filter (· ∈ names) = names := by
    refine (hkeys.filter _).eq_of_mem_iff hsorted ?_
    intro x
    rw [List.mem_filter, decide_eq_true_eq, and_iff_right_iff_imp]
    intro hx
    have hknown := ((hnames x).mp hx).known
    exact hcomplete x hknown.1 hknown.2
  have hjoins : joinsOf names s.nextNumber one s (some guard) =
      names.filterMap (joinAt? guard one.env s) := by
    rw [joinsOf, ← List.filterMap_eq_map]
    refine List.filterMap_congr ?_
    intro x hx
    exact (joinAt?_of_differ ((hnames x).mp hx)).symm
  rw [hjoins, ← hfilter, List.filterMap_filter]
  refine List.filterMap_congr ?_
  intro x _
  split
  · rfl
  · next hx =>
    rw [decide_eq_true_eq, hnames] at hx
    exact joinAt?_of_not_differ hx

namespace Block

variable {cond : Expr String} {t e body : Block} {s first second joined after final : Scope}
  {thenCode elseCode joins code exits : Code}

/-- The names that a branch joins: assigned in an arm, and known before the branch or assigned in
both arms. -/
def merged (t e : Block) (s : Scope) : List String :=
  (sortNames (assigned t ++ assigned e)).filter fun x =>
    s.env.contains x || x ∈ assigned t && x ∈ assigned e

theorem mem_merged {x : String} : x ∈ merged t e s ↔
    (x ∈ assigned t ∨ x ∈ assigned e) ∧
      (s.env.get? x ≠ none ∨ x ∈ assigned t ∧ x ∈ assigned e) := by
  simp [merged, NameMap.contains, Option.isSome_iff_ne_none]

theorem sorted_merged (t e : Block) (s : Scope) : (merged t e s).Pairwise (· < ·) :=
  (pairwise_sortNames _).filter _

theorem sorted_carried (body : Block) (s : Scope) : (carried body s).Pairwise (· < ·) :=
  (pairwise_sortNames _).filter _

/-- The arms of a branch differ on the names that it joins: an arm gives a new version to a name
exactly if it assigns the name. -/
theorem Branch.differ_iff (h : Branch cond t e s thenCode first elseCode second joins joined)
    (x : String) : x ∈ merged t e s ↔ first.Differ second x := by
  have hfirst := h.first_ne_none (x := x)
  have hsecond := h.second_ne_none (x := x)
  rw [mem_merged, ← List.mem_append]
  constructor
  · rintro ⟨hx, hknown⟩
    obtain ⟨a, ha⟩ := Option.ne_none_iff_exists'.mp
      (hfirst.mpr (hknown.imp_right And.left))
    obtain ⟨b, hb⟩ := Option.ne_none_iff_exists'.mp
      (hsecond.mpr (hknown.imp_right And.right))
    exact ⟨a, b, ha, hb, h.number_ne hx ha hb⟩
  · intro hdiffer
    have hknown := hdiffer.known
    obtain ⟨a, b, ha, hb, hab⟩ := hdiffer
    refine ⟨?_, ?_⟩
    · by_cases hx : x ∈ assigned t ++ assigned e
      · exact hx
      · -- neither arm assigns the name, so both keep its version
        rw [List.mem_append, not_or] at hx
        have hkept : first.current x = second.current x :=
          (h.thenStep.kept x hx.1).trans (h.elseStep.kept x hx.2).symm
        exact absurd hkept (current_ne ha hb hab)
    · rcases hfirst.mp hknown.1 with hs | ht
      · exact .inl hs
      · exact (hsecond.mp hknown.2).imp_right fun he => ⟨ht, he⟩

/-- The paths around a loop and through it differ on the names that the loop carries. -/
theorem Loop.differ_iff (h : Loop cond body s code after exits final) (x : String) :
    x ∈ carried body s ↔ s.Differ after x := by
  have hnodup := nodup_carried body s
  constructor
  · intro hx
    obtain ⟨hassigned, hknown⟩ := mem_carried.mp hx
    obtain ⟨a, ha⟩ := Option.ne_none_iff_exists'.mp hknown
    obtain ⟨b, hb, hle⟩ := h.bodyStep.env_of_written hassigned
    rw [nextNumber_advanceAll hnodup, if_pos hx] at hle
    have hlt := h.valid x a ha
    exact ⟨a, b, ha, hb, by omega⟩
  · rintro ⟨a, b, ha, hb, hab⟩
    by_cases hx : x ∈ carried body s
    · exact hx
    · -- a name that is known and not carried is not assigned
      have hassigned : x ∉ assigned body := fun hmem =>
        hx (mem_carried.mpr ⟨hmem, ha ▸ Option.some_ne_none a⟩)
      have hentry : (s.advanceAll (carried body s)).current x = s.current x :=
        current_congr (by rw [env_advanceAll hnodup, if_neg hx])
      have hkept : s.current x = after.current x :=
        hentry.symm.trans (h.bodyStep.kept x hassigned).symm
      exact absurd hkept (current_ne ha hb hab)

/-! ## The statements of a program -/

/-- A block that is numbered from a scope comes to a statement in a scope. -/
inductive Visits : Block → Scope → Stmt → Scope → Prop where
  | here {stmt : Stmt} {rest : Block} {s : Scope} : Visits (stmt :: rest) s stmt s
  | later {head stmt : Stmt} {rest : Block} {s s₁ s' : Scope} {code : Code} :
      head.number s = .ok (code, s₁) → Visits rest s₁ stmt s' → Visits (head :: rest) s stmt s'
  | thenArm {span : Span} {cond : Expr String} {t e rest : Block} {stmt : Stmt} {s s₁ s' : Scope} :
      s.claim (Stmt.ifElse span cond t e).readNames = .ok s₁ → Visits t s₁ stmt s' →
      Visits (.ifElse span cond t e :: rest) s stmt s'
  | elseArm {span : Span} {cond : Expr String} {t e rest : Block} {stmt : Stmt}
      {s s₁ first s' : Scope} {code : Code} :
      s.claim (Stmt.ifElse span cond t e).readNames = .ok s₁ → number t s₁ = .ok (code, first) →
      Visits e { env := s₁.env, next := first.next } stmt s' →
      Visits (.ifElse span cond t e :: rest) s stmt s'
  | body {span : Span} {cond : Expr String} {body rest : Block} {stmt : Stmt} {s s₁ s' : Scope} :
      s.claim (Stmt.whileDo span cond body).readNames = .ok s₁ →
      Visits body (s₁.advanceAll (carried body s₁)) stmt s' →
      Visits (.whileDo span cond body :: rest) s stmt s'
  | counting {span : Span} {init update : Assignment} {cond : Expr String} {body rest : Block}
      {stmt : Stmt} {s s' : Scope} :
      Visits (counting span init cond update body ++ rest) s stmt s' →
      Visits (.forDo span init cond update body :: rest) s stmt s'

theorem number_singleton (stmt : Stmt) (s : Scope) : number [stmt] s = stmt.number s := by
  simp only [number_cons, number_nil, pure_bind, List.append_nil]
  exact bind_pure (stmt.number s)

theorem Numbers.stmt_number_eq {stmt : Stmt} {s s' : Scope} {code : Code}
    (h : Numbers [stmt] s code s') (hv : s.Valid) : stmt.number s = .ok (code, s') := by
  rw [← number_singleton]
  exact h.number_eq hv

/-- The numbering of a block starts with that of its first statement. -/
theorem Numbers.split_cons {stmt : Stmt} {rest : Block} {s s' : Scope} {code : Code}
    (h : Numbers (stmt :: rest) s code s') :
    ∃ c₁ s₁ c₂, Numbers [stmt] s c₁ s₁ ∧ Numbers rest s₁ c₂ s' ∧ code = c₁ ++ c₂ :=
  @Numbers.split [stmt] rest s s' code h

/-- A statement is numbered in a valid scope, and its code is part of a list. -/
structure Occurs (stmt : Stmt) (s : Scope) (code : Code) : Prop where
  valid : s.Valid
  numbers : ∃ part s', Numbers [stmt] s part s' ∧ part <:+: code

theorem Occurs.mono {stmt : Stmt} {s : Scope} {code code' : Code} (h : Occurs stmt s code)
    (hsub : code <:+: code') : Occurs stmt s code' := by
  obtain ⟨part, s', hpart, hinfix⟩ := h.numbers
  exact ⟨h.valid, part, s', hpart, hinfix.trans hsub⟩

/-- The statements that a block comes to occur in the code of the block. Numbering is a function, so
a visit meets the same scopes as the derivation of the code. -/
theorem Visits.occurs {b : Block} {stmt : Stmt} {s s₁ s' : Scope} {code : Code}
    (h : Visits b s stmt s₁) (hv : s.Valid) (hnum : Numbers b s code s') :
    Occurs stmt s₁ code := by
  induction h generalizing code s' with
  | here =>
    obtain ⟨c₁, s₂, c₂, h₁, -, rfl⟩ := hnum.split_cons
    exact ⟨hv, c₁, s₂, h₁, (List.prefix_append c₁ c₂).isInfix⟩
  | later hhead _ ih =>
    obtain ⟨c₁, s₂, c₂, h₁, h₂, rfl⟩ := hnum.split_cons
    rw [h₁.stmt_number_eq hv] at hhead
    cases hhead
    exact (ih (h₁.step hv).valid h₂).mono (List.suffix_append _ c₂).isInfix
  | thenArm hclaim _ ih =>
    cases hnum with
    | ifElse hclaim' ht he hjoin hrest =>
      rw [hclaim] at hclaim'
      cases hclaim'
      refine (ih ((claims_of_claim hclaim).valid hv) ht).mono ?_
      simp only [List.append_assoc]
      exact (List.prefix_append _ _).isInfix
  | elseArm hclaim hthen _ ih =>
    cases hnum with
    | ifElse hclaim' ht he hjoin hrest =>
      rw [hclaim] at hclaim'
      cases hclaim'
      have hbranch := Branch.of_claim hv hclaim ht.step he.step hjoin
      rw [ht.number_eq hbranch.valid] at hthen
      cases hthen
      refine (ih hbranch.elseValid he).mono ?_
      simp only [List.append_assoc]
      exact List.infix_append' _ _ _
  | body hclaim _ ih =>
    cases hnum with
    | whileDo hclaim' hbody hexit hrest =>
      rw [hclaim] at hclaim'
      cases hclaim'
      have hloop := Loop.of_claim hv hclaim hbody.step hexit
      refine (ih (hloop.valid.advanceAll _) hbody).mono ?_
      simp only [List.append_assoc]
      exact (List.prefix_append _ _).isInfix
  | counting _ ih =>
    cases hnum with
    | forDo hnum => exact ih hv hnum

end Block

/-! ## The joins of a statement -/

/-- The code of a statement that is numbered in a scope: the code of its parts, and after it the
joins that the statement itself needs. -/
inductive Stmt.Places : Stmt → Scope → Code → Code → Prop where
  | ifElse {span : Span} {cond : Expr String} {t e : Block} {s s₁ first second : Scope}
      {thenCode elseCode : Code} {names : List String} :
      s.claim (Stmt.ifElse span cond t e).readNames = .ok s₁ →
      Block.number t s₁ = .ok (thenCode, first) →
      Block.number e { env := s₁.env, next := first.next } = .ok (elseCode, second) →
      names.Pairwise (· < ·) →
      (∀ x, x ∈ names ↔ (x ∈ Block.assigned t ∨ x ∈ Block.assigned e) ∧
        (s₁.env.get? x ≠ none ∨ x ∈ Block.assigned t ∧ x ∈ Block.assigned e)) →
      (∀ x ∈ names, first.env.get? x ≠ none ∧ second.env.get? x ≠ none) →
      Places (.ifElse span cond t e) s (thenCode ++ elseCode)
        (joinsOf names second.nextNumber first second (some (s₁.resolve cond)))
  | whileDo {span : Span} {cond : Expr String} {body : Block} {s s₁ after : Scope} {code : Code}
      {names : List String} :
      s.claim (Stmt.whileDo span cond body).readNames = .ok s₁ →
      Block.number body (s₁.advanceAll names) = .ok (code, after) →
      names.Pairwise (· < ·) →
      (∀ x, x ∈ names ↔ x ∈ Block.assigned body ∧ s₁.env.get? x ≠ none) →
      (∀ x ∈ names, after.env.get? x ≠ none) →
      Places (.whileDo span cond body) s code
        (joinsOf names s₁.nextNumber s₁ after none ++
          joinsOf names after.nextNumber s₁ after (some (.unary .not (s₁.resolve cond))))
  | forDo {span : Span} {init update : Assignment} {cond : Expr String} {body : Block}
      {s s' : Scope} {code : Code} :
      Block.number (Block.counting span init cond update body) s = .ok (code, s') →
      Places (.forDo span init cond update body) s code []
  | simple {stmt : Stmt} {s : Scope} {code : Code} :
      stmt.isSimple = true → (∀ result operands guard, .join result operands guard ∉ code) →
      Places stmt s code []

namespace Block

/-- A branch has a join for every name on which its arms differ. -/
theorem Numbers.places_ifElse {span : Span} {cond : Expr String} {t e : Block}
    {s s₁ first second joined : Scope} {thenCode elseCode joins : Code} (hv : s.Valid)
    (hclaim : s.claim (Stmt.ifElse span cond t e).readNames = .ok s₁)
    (ht : Numbers t s₁ thenCode first)
    (he : Numbers e { env := s₁.env, next := first.next } elseCode second)
    (hjoin : joinArms (s₁.resolve cond) first.env second.env.toList
      { env := first.env, next := second.next } = (joins, joined)) :
    Stmt.Places (.ifElse span cond t e) s (thenCode ++ elseCode) joins := by
  have hbranch := Branch.of_claim hv hclaim ht.step he.step hjoin
  have hsorted := sorted_merged t e s₁
  rw [hbranch.meets.code_eq hsorted hbranch.differ_iff]
  exact .ifElse hclaim (ht.number_eq hbranch.valid) (he.number_eq hbranch.elseValid) hsorted
    (fun _ => mem_merged) fun x hx => ((hbranch.differ_iff x).mp hx).known

/-- A loop has two joins for every name that it carries, one at its entry and one at its exit. -/
theorem Numbers.places_whileDo {span : Span} {cond : Expr String} {body : Block}
    {s s₁ after final : Scope} {code exits : Code} (hv : s.Valid)
    (hclaim : s.claim (Stmt.whileDo span cond body).readNames = .ok s₁)
    (hbody : Numbers body (s₁.advanceAll (carried body s₁)) code after)
    (hexit : exitJoins (.unary .not (s₁.resolve cond)) after.env s₁.env.toList after =
      .ok (exits, final)) :
    Stmt.Places (.whileDo span cond body) s code
      (s₁.entryCode after (carried body s₁) ++ exits) := by
  have hloop := Loop.of_claim hv hclaim hbody.step hexit
  have hsorted := sorted_carried body s₁
  rw [hloop.meets.code_eq hsorted hloop.differ_iff]
  exact .whileDo hclaim (hbody.number_eq (hloop.valid.advanceAll _)) hsorted
    (fun _ => mem_carried) fun x hx => ((hloop.differ_iff x).mp hx).known.2

/-- The code of a statement is that of its parts and the joins that it needs. -/
theorem Numbers.places {stmt : Stmt} {s s' : Scope} {code : Code} (h : Numbers [stmt] s code s')
    (hv : s.Valid) : ∃ parts joins, code = parts ++ joins ∧ stmt.Places s parts joins := by
  cases h with
  | assign hclaim hrest =>
    cases hrest
    exact ⟨_, [], (List.append_nil _).symm, .simple rfl (by simp)⟩
  | check hclaim hrest =>
    cases hrest
    exact ⟨_, [], (List.append_nil _).symm, .simple rfl (by simp)⟩
  | ifElse hclaim ht he hjoin hrest =>
    cases hrest
    exact ⟨_, _, List.append_nil _, Numbers.places_ifElse hv hclaim ht he hjoin⟩
  | whileDo hclaim hbody hexit hrest =>
    cases hrest
    refine ⟨_, _, ?_, Numbers.places_whileDo hv hclaim hbody hexit⟩
    rw [List.append_nil, List.append_assoc]
  | forDo h =>
    rw [List.append_nil] at h
    exact ⟨_, [], (List.append_nil _).symm, .forDo (h.number_eq hv)⟩

/-- A block comes to a statement that needs a join. -/
def Needs (b : Block) (s : Scope) (join : Instr) : Prop :=
  ∃ stmt s₁ parts joins, Visits b s stmt s₁ ∧ stmt.Places s₁ parts joins ∧ join ∈ joins

theorem Needs.imp {b b' : Block} {s s' : Scope} {join : Instr} (h : Needs b s join)
    (hvisits : ∀ {stmt s₁}, Visits b s stmt s₁ → Visits b' s' stmt s₁) : Needs b' s' join := by
  obtain ⟨stmt, s₁, parts, joins, hvisit, hplaces⟩ := h
  exact ⟨stmt, s₁, parts, joins, hvisits hvisit, hplaces⟩

/-- Every join in the code of a block is one that a statement needs to which the block comes. -/
theorem Numbers.needs {b : Block} {s s' : Scope} {code : Code} (h : Numbers b s code s')
    (hv : s.Valid) {result : Version} {operands : List Version} {guard : Option (Expr Version)}
    (hmem : .join result operands guard ∈ code) : Needs b s (.join result operands guard) := by
  induction h with
  | nil s => cases hmem
  | @assign span a rest s s₁ s' more hclaim hrest ih =>
    have hfirst : Numbers [.assign span a] s _ _ := .assign hclaim (.nil (s₁.advance a.target))
    have hv₁ := ((claims_of_claim hclaim).valid hv).advance a.target
    rcases List.mem_cons.mp hmem with hmem | hmem
    · cases hmem
    · exact (ih hv₁ hmem).imp (.later (hfirst.stmt_number_eq hv))
  | @check span cond rest s s₁ s' more hclaim hrest ih =>
    have hfirst : Numbers [.check span cond] s _ _ := .check hclaim (.nil s₁)
    rcases List.mem_cons.mp hmem with hmem | hmem
    · cases hmem
    · exact (ih ((claims_of_claim hclaim).valid hv) hmem).imp (.later (hfirst.stmt_number_eq hv))
  | @ifElse span cond t e rest s s₁ first second joined s' thenCode elseCode joins more hclaim ht he
      hjoin hrest iht ihe ih =>
    have hbranch := Branch.of_claim hv hclaim ht.step he.step hjoin
    have hfirst := Numbers.ifElse hclaim ht he hjoin (.nil joined)
    rcases List.mem_append.mp hmem with hmem | hmem
    · rcases List.mem_append.mp hmem with hmem | hmem
      · rcases List.mem_append.mp hmem with hmem | hmem
        · exact (iht hbranch.valid hmem).imp (.thenArm hclaim)
        · exact (ihe hbranch.elseValid hmem).imp (.elseArm hclaim (ht.number_eq hbranch.valid))
      · exact ⟨_, s, _, joins, .here, Numbers.places_ifElse hv hclaim ht he hjoin, hmem⟩
    · exact (ih hbranch.step.valid hmem).imp (.later (hfirst.stmt_number_eq hv))
  | @whileDo span cond body rest s s₁ after final s' code exits more hclaim hbody hexit hrest ihbody
      ih =>
    have hloop := Loop.of_claim hv hclaim hbody.step hexit
    have hfirst := Numbers.whileDo hclaim hbody hexit (.nil final)
    -- the joins of the loop stand together
    rw [List.append_assoc code] at hmem
    rcases List.mem_append.mp hmem with hmem | hmem
    · rcases List.mem_append.mp hmem with hmem | hmem
      · exact (ihbody (hloop.valid.advanceAll _) hmem).imp (.body hclaim)
      · exact ⟨_, s, code, _, .here, Numbers.places_whileDo hv hclaim hbody hexit, hmem⟩
    · exact (ih hloop.step.valid hmem).imp (.later (hfirst.stmt_number_eq hv))
  | forDo hnum ih => exact (ih hv hmem).imp .counting

end Block

/-- Joins stand exactly where they are needed. Every statement to which the numbering of a program
comes is numbered to the code of its parts and the joins that it needs, which is part of the code
of the program; and the program has no other joins. -/
theorem Program.joins_placed (p : Program) :
    ∃ f, p.toSsa = .ok f ∧
      (∀ stmt s, Block.Visits p.statements {} stmt s →
        ∃ parts joins s', stmt.number s = .ok (parts ++ joins, s') ∧ stmt.Places s parts joins ∧
          parts ++ joins <:+: f.code) ∧
      ∀ result operands guard, .join result operands guard ∈ f.code →
        Block.Needs p.statements {} (.join result operands guard) := by
  obtain ⟨code, final, hnum, hssa⟩ := p.exists_toSsa
  refine ⟨_, hssa, ?_, ?_⟩
  · intro stmt s hvisit
    obtain ⟨hvalid, part, s', hpart, hinfix⟩ := hvisit.occurs valid_empty hnum
    obtain ⟨parts, joins, rfl, hplaces⟩ := hpart.places hvalid
    exact ⟨parts, joins, s', hpart.stmt_number_eq hvalid, hplaces, hinfix⟩
  · intro result operands guard hmem
    exact hnum.needs valid_empty hmem

end WhileSmt
