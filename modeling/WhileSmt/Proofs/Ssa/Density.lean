import WhileSmt.Proofs.Ssa.Placement

/-!
The numbers of versions. All paths of a program take the versions of a name from one counter, and
every number that the counter hands out is given to a definition: to an assignment, to a join, or to
the entry of a loop, whose join comes after the body. Only version zero of an input is handed out
without a definition. So the versions of a name have no gaps, and where paths meet, the greatest one
is in force again.

Main statements: a numbered block defines exactly the numbers handed out meanwhile
(`Block.Numbers.fills`), a name that it assigns ends in the greatest of them
(`Block.Numbers.latest`), and what this says of a program (`Program.versions_dense`,
`Program.number_le_length`).
-/

namespace WhileSmt

open Scope

/-! ## Inputs -/

/-- The names that a statement asks for where it begins. A counting loop leaves this to the
statements that it stands for. -/
def Stmt.asked : Stmt → List String
  | .forDo .. => []
  | stmt => stmt.reads

theorem Stmt.reads_of_asked {stmt : Stmt} {x : String} (h : x ∈ stmt.asked) : x ∈ stmt.reads := by
  cases stmt with
  | forDo span init cond update body => cases h
  | assign | check | ifElse | whileDo => exact h

namespace Block

/-- The numbering of a block makes a name an input: it comes to a statement that asks for the name
in a scope in which the name is not known. -/
def MakesInput (b : Block) (s : Scope) (x : String) : Prop :=
  ∃ stmt s₁, Visits b s stmt s₁ ∧ x ∈ stmt.asked ∧ s₁.env.get? x = none

variable {b rest : Block} {stmt : Stmt} {s s₁ s' : Scope} {code : Code} {x : String}

theorem not_makesInput_nil : ¬ MakesInput [] s x := by
  rintro ⟨stmt, s₁, hvisit, -⟩
  cases hvisit

theorem Visits.mem_reads (h : Visits b s stmt s₁) (hx : x ∈ stmt.asked) : x ∈ reads b := by
  induction h with
  | here => exact List.mem_append_left _ (Stmt.reads_of_asked hx)
  | later _ _ ih => exact List.mem_append_right _ (ih hx)
  | thenArm _ _ ih =>
    exact List.mem_append_left _ (List.mem_append_left _ (List.mem_append_right _ (ih hx)))
  | elseArm _ _ _ ih => exact List.mem_append_left _ (List.mem_append_right _ (ih hx))
  | body _ _ ih => exact List.mem_append_left _ (List.mem_append_right _ (ih hx))
  | counting _ ih => exact mem_reads_forDo.mpr (ih hx)

theorem MakesInput.mem_reads (h : MakesInput b s x) : x ∈ reads b := by
  obtain ⟨stmt, s₁, hvisit, hx, -⟩ := h
  exact hvisit.mem_reads hx

theorem MakesInput.here (hx : x ∈ stmt.asked) (hnone : s.env.get? x = none) :
    MakesInput (stmt :: rest) s x :=
  ⟨stmt, s, .here, hx, hnone⟩

theorem MakesInput.later (hhead : stmt.number s = .ok (code, s₁)) (h : MakesInput rest s₁ x) :
    MakesInput (stmt :: rest) s x := by
  obtain ⟨st, s₂, hvisit, hx, hnone⟩ := h
  exact ⟨st, s₂, .later hhead hvisit, hx, hnone⟩

/-- An assignment or an assertion makes the unknown names inputs that it reads. -/
theorem makesInput_simple (hsimple : stmt.isSimple = true)
    (hhead : stmt.number s = .ok (code, s₁)) :
    MakesInput (stmt :: rest) s x ↔
      s.env.get? x = none ∧ x ∈ stmt.reads ∨ MakesInput rest s₁ x := by
  constructor
  · rintro ⟨st, s₂, hvisit, hx, hnone⟩
    cases hvisit with
    | here => exact .inl ⟨hnone, Stmt.reads_of_asked hx⟩
    | later hhead' hvisit =>
      rw [hhead] at hhead'
      cases hhead'
      exact .inr ⟨st, s₂, hvisit, hx, hnone⟩
    | thenArm | elseArm | body | counting => cases hsimple
  · rintro (⟨hnone, hx⟩ | h)
    · refine .here ?_ hnone
      cases stmt with
      | assign | check => exact hx
      | ifElse | whileDo | forDo => cases hsimple
    · exact .later hhead h

/-- A branch makes the unknown names inputs that it reads anywhere, and its arms make no others. -/
theorem makesInput_ifElse {span : Span} {cond : Expr String} {t e : Block} {first : Scope}
    {thenCode : Code} {joined : Scope}
    (hclaim : s.claim (Stmt.ifElse span cond t e).readNames = .ok s₁)
    (ht : number t s₁ = .ok (thenCode, first))
    (hhead : (Stmt.ifElse span cond t e).number s = .ok (code, joined))
    (hthen : ¬ MakesInput t s₁ x)
    (helse : ¬ MakesInput e { env := s₁.env, next := first.next } x) :
    MakesInput (.ifElse span cond t e :: rest) s x ↔
      s.env.get? x = none ∧ x ∈ (Stmt.ifElse span cond t e).reads ∨ MakesInput rest joined x := by
  constructor
  · rintro ⟨st, s₂, hvisit, hx, hnone⟩
    cases hvisit with
    | here => exact .inl ⟨hnone, hx⟩
    | later hhead' hvisit =>
      rw [hhead] at hhead'
      cases hhead'
      exact .inr ⟨st, s₂, hvisit, hx, hnone⟩
    | thenArm hclaim' hvisit =>
      rw [hclaim] at hclaim'
      cases hclaim'
      exact absurd ⟨st, s₂, hvisit, hx, hnone⟩ hthen
    | elseArm hclaim' ht' hvisit =>
      rw [hclaim] at hclaim'
      cases hclaim'
      rw [ht] at ht'
      cases ht'
      exact absurd ⟨st, s₂, hvisit, hx, hnone⟩ helse
  · rintro (⟨hnone, hx⟩ | h)
    · exact .here hx hnone
    · exact .later hhead h

/-- A loop makes the unknown names inputs that it reads anywhere, and its body makes no others. -/
theorem makesInput_whileDo {span : Span} {cond : Expr String} {body : Block} {final : Scope}
    (hclaim : s.claim (Stmt.whileDo span cond body).readNames = .ok s₁)
    (hhead : (Stmt.whileDo span cond body).number s = .ok (code, final))
    (hbody : ¬ MakesInput body (s₁.advanceAll (carried body s₁)) x) :
    MakesInput (.whileDo span cond body :: rest) s x ↔
      s.env.get? x = none ∧ x ∈ (Stmt.whileDo span cond body).reads ∨ MakesInput rest final x := by
  constructor
  · rintro ⟨st, s₂, hvisit, hx, hnone⟩
    cases hvisit with
    | here => exact .inl ⟨hnone, hx⟩
    | later hhead' hvisit =>
      rw [hhead] at hhead'
      cases hhead'
      exact .inr ⟨st, s₂, hvisit, hx, hnone⟩
    | body hclaim' hvisit =>
      rw [hclaim] at hclaim'
      cases hclaim'
      exact absurd ⟨st, s₂, hvisit, hx, hnone⟩ hbody
  · rintro (⟨hnone, hx⟩ | h)
    · exact .here hx hnone
    · exact .later hhead h

/-- A counting loop makes the same inputs as the statements that it stands for. -/
theorem makesInput_forDo {span : Span} {init update : Assignment} {cond : Expr String}
    {body : Block} (hv : s.Valid)
    (hnum : Numbers (counting span init cond update body ++ rest) s code s') :
    MakesInput (.forDo span init cond update body :: rest) s x ↔
      MakesInput (counting span init cond update body ++ rest) s x := by
  constructor
  · rintro ⟨st, s₂, hvisit, hx, hnone⟩
    cases hvisit with
    | here => cases hx
    | later hhead hvisit =>
      -- the loop ends in the scope in which the statements end that it stands for
      obtain ⟨c₁, s₁, c₂, h₁, h₂, -⟩ := hnum.split
      have hloop : Numbers [.forDo span init cond update body] s c₁ s₁ := by
        refine .forDo ?_
        rwa [List.append_nil]
      rw [hloop.stmt_number_eq hv] at hhead
      cases hhead
      obtain ⟨_, s₃, _, hinit, hwhile, -⟩ := h₁.split_cons
      exact .later (hinit.stmt_number_eq hv)
        (.later (hwhile.stmt_number_eq (hinit.step hv).valid) ⟨st, s₂, hvisit, hx, hnone⟩)
    | counting hvisit => exact ⟨st, s₂, hvisit, hx, hnone⟩
  · rintro ⟨st, s₂, hvisit, hx, hnone⟩
    exact ⟨st, s₂, .counting hvisit, hx, hnone⟩

end Block

/-! ## Numbers without gaps -/

theorem Scope.Meets.nextNumber_of_not_differ {guard : Expr Version} {one s s' : Scope} {code : Code}
    (h : Meets guard one.env s code s') {x : String} (hx : ¬ one.Differ s x) :
    s'.nextNumber x = s.nextNumber x := by
  rw [nextNumber, h.next x, joinAt?_of_not_differ hx, Option.isSome_none,
    if_neg Bool.false_ne_true, nextNumber]

namespace Code

/-- Code that defines the numbers from `lo` on and below `hi`, except for version zero of the names
that become inputs. -/
structure Fills (inputs : String → Prop) (lo hi : String → Nat) (code : Code) : Prop where
  le : ∀ x, lo x ≤ hi x
  first : ∀ x, inputs x → lo x = 0 ∧ 0 < hi x
  defined : ∀ v, v ∈ defined code ↔ v.marker = none ∧ lo v.base ≤ v.number ∧
    v.number < hi v.base ∧ ¬ (inputs v.base ∧ v.number = 0)

namespace Fills

variable {P Q : String → Prop} {lo mid hi : String → Nat} {c₁ c₂ code : Code} {s s' : Scope}
  {x : String}

theorem congr (h : Fills P lo hi code) (hPQ : ∀ x, P x ↔ Q x) : Fills Q lo hi code := by
  obtain rfl : P = Q := funext fun x => propext (hPQ x)
  exact h

/-- The order of the instructions does not matter. -/
theorem swap (h : Fills P lo hi (c₁ ++ c₂)) : Fills P lo hi (c₂ ++ c₁) where
  le := h.le
  first := h.first
  defined := by
    intro v
    rw [← h.defined v, defined_append, defined_append, List.mem_append, List.mem_append]
    exact or_comm

theorem append (h₁ : Fills P lo mid c₁) (h₂ : Fills Q mid hi c₂) :
    Fills (fun x => P x ∨ Q x) lo hi (c₁ ++ c₂) where
  le := fun x => Nat.le_trans (h₁.le x) (h₂.le x)
  first := by
    rintro x (hx | hx)
    · obtain ⟨hzero, hpos⟩ := h₁.first x hx
      exact ⟨hzero, Nat.lt_of_lt_of_le hpos (h₂.le x)⟩
    · obtain ⟨hzero, hpos⟩ := h₂.first x hx
      exact ⟨Nat.eq_zero_of_le_zero (hzero ▸ h₁.le x), hpos⟩
  defined := by
    intro v
    have hle₁ := h₁.le v.base
    have hle₂ := h₂.le v.base
    have hfirst₁ := h₁.first v.base
    have hfirst₂ := h₂.first v.base
    rw [defined_append, List.mem_append, h₁.defined v, h₂.defined v]
    grind

/-- Two pieces that make no inputs. -/
theorem append_plain (h₁ : Fills (fun _ => False) lo mid c₁)
    (h₂ : Fills (fun _ => False) mid hi c₂) : Fills (fun _ => False) lo hi (c₁ ++ c₂) :=
  (h₁.append h₂).congr fun _ => or_self_iff

/-- Code that defines nothing leaves the numbers as they are. -/
theorem quiet (h : Code.defined code = []) : Fills (fun _ => False) lo lo code where
  le := fun _ => Nat.le_refl _
  first := fun _ hx => hx.elim
  defined := by
    intro v
    rw [h]
    simp only [List.not_mem_nil, false_iff]
    omega

/-- An input takes version zero. -/
theorem claims {names : List String} (h : s.Claims names s') :
    Fills (fun x => s.env.get? x = none ∧ x ∈ names) s.nextNumber s'.nextNumber [] := by
  have hinput : ∀ x, s.env.get? x = none ∧ x ∈ names →
      s.nextNumber x = 0 ∧ s'.nextNumber x = 1 := by
    intro x hx
    refine ⟨nextNumber_of_unused (h.unused x hx.2 hx.1), ?_⟩
    rw [nextNumber, h.next x, if_pos hx, Option.getD_some]
  have hother : ∀ x, ¬ (s.env.get? x = none ∧ x ∈ names) → s'.nextNumber x = s.nextNumber x := by
    intro x hx
    rw [nextNumber, h.next x, if_neg hx, nextNumber]
  refine ⟨h.nextNumber_le, ?_, ?_⟩
  · intro x hx
    obtain ⟨hzero, hone⟩ := hinput x hx
    omega
  · intro v
    simp only [Code.defined, List.filterMap_nil, List.not_mem_nil, false_iff]
    by_cases hv : s.env.get? v.base = none ∧ v.base ∈ names
    · have hnumbers := hinput v.base hv
      rintro ⟨-, hle, hlt, hne⟩
      exact hne ⟨hv, by omega⟩
    · have hsame := hother v.base hv
      omega

/-- An assignment defines the next number of its target. -/
theorem define (s : Scope) (target : String) (value : Expr Version) :
    Fills (fun _ => False) s.nextNumber (s.advance target).nextNumber
      [.define { base := target, number := s.nextNumber target } value] := by
  refine ⟨?_, fun _ hx => hx.elim, ?_⟩
  · intro x
    rw [nextNumber_advance]
    split <;> omega
  · rintro ⟨x, number, marker⟩
    simp only [Code.defined, List.filterMap_cons, Instr.defined?, List.filterMap_nil,
      List.mem_singleton, Version.mk.injEq, nextNumber_advance, false_and, not_false_iff, and_true]
    constructor
    · rintro ⟨rfl, rfl, rfl⟩
      simp
    · rintro ⟨rfl, hle, hlt⟩
      split at hlt
      · next hx => exact ⟨hx, by rw [← hx]; omega, rfl⟩
      · omega

/-- Joins define the next numbers of the names on which two paths differ. -/
theorem joins {guard : Expr Version} {one : Scope} (h : Meets guard one.env s code s') :
    Fills (fun _ => False) s.nextNumber s'.nextNumber code := by
  refine ⟨h.nextNumber_le, fun _ hx => hx.elim, ?_⟩
  rintro ⟨x, number, marker⟩
  simp only [false_and, not_false_iff, and_true]
  constructor
  · intro hv
    obtain ⟨y, a, b, ha, hb, hab, hv⟩ := h.defined hv
    cases hv
    have hnext := (h.of_ne ha hb hab).2
    exact ⟨rfl, Nat.le_refl _, by omega⟩
  · rintro ⟨rfl, hle, hlt⟩
    by_cases hdiffer : one.Differ s x
    · obtain ⟨a, b, ha, hb, hab⟩ := hdiffer
      rw [(h.of_ne ha hb hab).2] at hlt
      obtain rfl : number = s.nextNumber x := by omega
      exact mem_defined.mpr ⟨_, h.mem_code.mpr ⟨x, a, b, ha, hb, hab, rfl⟩, rfl⟩
    · rw [h.nextNumber_of_not_differ hdiffer] at hlt
      omega

/-- The joins at the entry of a loop define the numbers in which the loop is entered. -/
theorem entries {names : List String} (hnodup : names.Nodup) (s after : Scope) :
    Fills (fun _ => False) s.nextNumber (s.advanceAll names).nextNumber
      (s.entryCode after names) := by
  have hnext := nextNumber_advanceAll (s := s) hnodup
  refine ⟨?_, fun _ hx => hx.elim, ?_⟩
  · intro x
    rw [hnext x]
    split <;> omega
  · rintro ⟨x, number, marker⟩
    simp only [mem_defined_entryCode, Version.mk.injEq, hnext, false_and, not_false_iff, and_true]
    constructor
    · rintro ⟨y, hy, rfl, rfl, rfl⟩
      simp [hy]
    · rintro ⟨rfl, hle, hlt⟩
      split at hlt
      · next hx => exact ⟨x, hx, rfl, by omega, rfl⟩
      · omega

/-- A name that is neither defined nor made an input keeps its next number. -/
theorem eq_of_not_defined (h : Fills P lo hi code) (hdef : ∀ v ∈ Code.defined code, v.base ≠ x)
    (hinput : ¬ P x) : hi x = lo x := by
  by_contra hne
  have hle := h.le x
  -- the next number itself would be defined
  have hmem : { base := x, number := lo x } ∈ Code.defined code := by
    refine (h.defined _).mpr ⟨rfl, Nat.le_refl _, ?_, fun hx => hinput hx.1⟩
    show lo x < hi x
    omega
  exact hdef _ hmem rfl

end Fills

end Code

namespace Block

variable {b : Block} {s s' : Scope} {code : Code} {x : String}

/-- A known name is not made an input. -/
theorem not_makesInput (h : Code.Fills (MakesInput b s) s.nextNumber s'.nextNumber code)
    (hv : s.Valid) (hx : s.env.get? x ≠ none) : ¬ MakesInput b s x := by
  intro hinput
  have hlt := hv.current_lt hx
  have hzero := (h.first x hinput).1
  omega

/-- A block makes no inputs if all names that it reads are known. -/
theorem not_makesInput_of_reads (h : Code.Fills (MakesInput b s) s.nextNumber s'.nextNumber code)
    (hv : s.Valid) (hknown : ∀ x ∈ reads b, s.env.get? x ≠ none) (x : String) :
    ¬ MakesInput b s x := fun hinput =>
  not_makesInput h hv (hknown x hinput.mem_reads) hinput

theorem fills_of_known (h : Code.Fills (MakesInput b s) s.nextNumber s'.nextNumber code)
    (hv : s.Valid) (hknown : ∀ x ∈ reads b, s.env.get? x ≠ none) :
    Code.Fills (fun _ => False) s.nextNumber s'.nextNumber code :=
  h.congr fun x => iff_false_intro (not_makesInput_of_reads h hv hknown x)

section Branch

variable {cond : Expr String} {t e : Block} {first second joined : Scope}
  {thenCode elseCode joins : Code}

theorem Branch.known_then (h : Branch cond t e s thenCode first elseCode second joins joined) :
    ∀ x ∈ reads t, s.env.get? x ≠ none := fun x hx =>
  h.known x (List.mem_append_left _ (List.mem_append_right _ hx))

theorem Branch.known_else (h : Branch cond t e s thenCode first elseCode second joins joined) :
    ∀ x ∈ reads e, s.env.get? x ≠ none := fun x hx => h.known x (List.mem_append_right _ hx)

/-- The second arm goes on with the numbers where the first one ends. -/
theorem Branch.fills (h : Branch cond t e s thenCode first elseCode second joins joined)
    (ht : Code.Fills (MakesInput t s) s.nextNumber first.nextNumber thenCode)
    (he : Code.Fills (MakesInput e { env := s.env, next := first.next }) first.nextNumber
      second.nextNumber elseCode) :
    Code.Fills (fun _ => False) s.nextNumber joined.nextNumber (thenCode ++ elseCode ++ joins) :=
  have hthen := fills_of_known ht h.valid h.known_then
  have helse := fills_of_known he h.elseValid h.known_else
  (hthen.append_plain helse).append_plain (.joins h.meets)

end Branch

section Loop

variable {cond : Expr String} {body : Block} {after final : Scope} {exits : Code}

theorem Loop.known_body (h : Loop cond body s code after exits final) :
    ∀ x ∈ reads body, (s.advanceAll (carried body s)).env.get? x ≠ none := by
  intro x hx
  rw [env_advanceAll (nodup_carried body s)]
  split
  · exact Option.some_ne_none _
  · exact h.known x (List.mem_append_right _ hx)

/-- The numbers in which a loop is entered come before those of its body, and their joins after
it. -/
theorem Loop.fills (h : Loop cond body s code after exits final)
    (hbody : Code.Fills (MakesInput body (s.advanceAll (carried body s)))
      (s.advanceAll (carried body s)).nextNumber after.nextNumber code) :
    Code.Fills (fun _ => False) s.nextNumber final.nextNumber
      (code ++ s.entryCode after (carried body s) ++ exits) :=
  have hcode := fills_of_known hbody (h.valid.advanceAll _) h.known_body
  have hentries := Code.Fills.entries (nodup_carried body s) s after
  (hentries.append_plain hcode).swap.append_plain (.joins h.meets)

end Loop

/-- A numbered block defines the numbers that are handed out meanwhile, except for version zero of
the names that it makes inputs. -/
theorem Numbers.fills (h : Numbers b s code s') (hv : s.Valid) :
    Code.Fills (MakesInput b s) s.nextNumber s'.nextNumber code := by
  induction h with
  | nil s => exact (Code.Fills.quiet rfl).congr fun x => ⟨False.elim, not_makesInput_nil⟩
  | @assign span a rest s s₁ s' more hclaim hrest ih =>
    have hclaims := claims_of_claim hclaim
    have hhead : Numbers [.assign span a] s _ _ := .assign hclaim (.nil (s₁.advance a.target))
    have hmore := ih ((hclaims.valid hv).advance a.target)
    refine ((Code.Fills.claims hclaims).append ((Code.Fills.define ..).append hmore)).congr ?_
    intro x
    rw [makesInput_simple rfl (hhead.stmt_number_eq hv), false_or]
    rfl
  | @check span cond rest s s₁ s' more hclaim hrest ih =>
    have hclaims := claims_of_claim hclaim
    have hhead : Numbers [.check span cond] s _ _ := .check hclaim (.nil s₁)
    have hmore := ih (hclaims.valid hv)
    have hcheck : Code.Fills (fun _ => False) s₁.nextNumber s₁.nextNumber
      [.check (s₁.resolve cond)] := .quiet rfl
    refine ((Code.Fills.claims hclaims).append (hcheck.append hmore)).congr ?_
    intro x
    rw [makesInput_simple rfl (hhead.stmt_number_eq hv), false_or]
    rfl
  | @ifElse span cond t e rest s s₁ first second joined s' thenCode elseCode joins more hclaim ht
      he hjoin hrest iht ihe ih =>
    have hclaims := claims_of_claim hclaim
    have hbranch := Branch.of_claim hv hclaim ht.step he.step hjoin
    have hthen := iht hbranch.valid
    have helse := ihe hbranch.elseValid
    have hhead := Numbers.ifElse hclaim ht he hjoin (.nil joined)
    have hmore := ih hbranch.step.valid
    refine ((Code.Fills.claims hclaims).append ((hbranch.fills hthen helse).append hmore)).congr ?_
    intro x
    rw [makesInput_ifElse hclaim (ht.number_eq hbranch.valid) (hhead.stmt_number_eq hv)
      (not_makesInput_of_reads hthen hbranch.valid hbranch.known_then x)
      (not_makesInput_of_reads helse hbranch.elseValid hbranch.known_else x), false_or,
      Stmt.readNames, mem_sortNames]
  | @whileDo span cond body rest s s₁ after final s' code exits more hclaim hbody hexit hrest
      ihbody ih =>
    have hclaims := claims_of_claim hclaim
    have hloop := Loop.of_claim hv hclaim hbody.step hexit
    have hcode := ihbody (hloop.valid.advanceAll _)
    have hhead := Numbers.whileDo hclaim hbody hexit (.nil final)
    have hmore := ih hloop.step.valid
    refine ((Code.Fills.claims hclaims).append ((hloop.fills hcode).append hmore)).congr ?_
    intro x
    rw [makesInput_whileDo hclaim (hhead.stmt_number_eq hv)
      (not_makesInput_of_reads hcode (hloop.valid.advanceAll _) hloop.known_body x), false_or,
      Stmt.readNames, mem_sortNames]
  | @forDo span init update cond body rest s s' code hnum ih =>
    exact (ih hv).congr fun x => (makesInput_forDo hv hnum).symm

/-! ## The version in force -/

/-- A name that a block neither assigns nor makes an input keeps its next number. -/
theorem Numbers.nextNumber_eq (h : Numbers b s code s') (hv : s.Valid) (hx : x ∉ assigned b)
    (hinput : ¬ MakesInput b s x) : s'.nextNumber x = s.nextNumber x := by
  refine (h.fills hv).eq_of_not_defined ?_ hinput
  rintro v hmem rfl
  exact hx ((h.step hv).targets v hmem)

end Block

/-- The greatest number of a name that has been handed out is in force. -/
def Scope.Latest (s : Scope) (x : String) : Prop :=
  (s.current x).number + 1 = s.nextNumber x

theorem Scope.Latest.congr {s s' : Scope} {x : String} (h : s.Latest x)
    (hcurrent : s'.current x = s.current x) (hnext : s'.nextNumber x = s.nextNumber x) :
    s'.Latest x := by
  rw [Latest, hcurrent, hnext]
  exact h

/-- A join puts the greatest number in force. -/
theorem Scope.Meets.latest {guard : Expr Version} {one s s' : Scope} {code : Code}
    (h : Meets guard one.env s code s') {x : String} (hx : one.Differ s x) : s'.Latest x := by
  obtain ⟨a, b, ha, hb, hab⟩ := hx
  rw [Latest, (h.current_of_ne ha hb hab).1, (h.of_ne ha hb hab).2]

namespace Block

variable {b rest : Block} {stmt : Stmt} {s s₁ s' : Scope} {code c₁ c₂ : Code} {x : String}

/-- The last statement that assigns a name decides. -/
theorem Numbers.latest_cons (h₁ : Numbers [stmt] s c₁ s₁) (h₂ : Numbers rest s₁ c₂ s')
    (hv : s.Valid) (hhead : x ∈ stmt.assigned → s₁.Latest x)
    (hrest : x ∈ assigned rest → s'.Latest x) (hx : x ∈ assigned (stmt :: rest)) :
    s'.Latest x := by
  have hstep := h₁.step hv
  by_cases hlater : x ∈ assigned rest
  · exact hrest hlater
  · have hassigned : x ∈ stmt.assigned := (List.mem_append.mp hx).resolve_right hlater
    have hknown : s₁.env.get? x ≠ none :=
      (hstep.known x).mpr (.inr (.inr (List.mem_append_left _ hassigned)))
    have hinput := not_makesInput (h₂.fills hstep.valid) hstep.valid hknown
    exact (hhead hassigned).congr ((h₂.step hstep.valid).kept x hlater)
      (h₂.nextNumber_eq hstep.valid hlater hinput)

/-- After a branch the greatest number is in force: the arms have been joined, or only one of them
knows the name. -/
theorem Branch.latest {cond : Expr String} {t e : Block} {first second joined : Scope}
    {thenCode elseCode joins : Code}
    (h : Branch cond t e s thenCode first elseCode second joins joined)
    (he : Numbers e { env := s.env, next := first.next } elseCode second)
    (hfirst : x ∈ assigned t → first.Latest x) (hsecond : x ∈ assigned e → second.Latest x)
    (hx : x ∈ assigned t ++ assigned e) : joined.Latest x := by
  by_cases hdiffer : first.Differ second x
  · exact h.meets.latest hdiffer
  · have hnext := h.meets.nextNumber_of_not_differ hdiffer
    rw [← h.differ_iff x, mem_merged, ← List.mem_append] at hdiffer
    have hone := mt (And.intro hx) hdiffer
    rw [not_or, not_not] at hone
    by_cases hxe : x ∈ assigned e
    · have hxt : x ∉ assigned t := fun hxt => hone.2 ⟨hxt, hxe⟩
      have hnone : first.env.get? x = none :=
        not_not.mp (mt h.first_ne_none.mp (not_or.mpr ⟨not_not_intro hone.1, hxt⟩))
      exact (hsecond hxe).congr (h.meets.current_of_left_none hnone) hnext
    · have hxt := (List.mem_append.mp hx).resolve_right hxe
      obtain ⟨a, ha, -⟩ := h.thenStep.env_of_written hxt
      have hnone : second.env.get? x = none :=
        not_not.mp (mt h.second_ne_none.mp (not_or.mpr ⟨not_not_intro hone.1, hxe⟩))
      have hinput := not_makesInput_of_reads (he.fills h.elseValid) h.elseValid h.known_else x
      have hkept := he.nextNumber_eq h.elseValid hxe hinput
      exact (hfirst hxt).congr (h.meets.current_of_right_none ha hnone) (hnext.trans hkept)

/-- After a loop the greatest number is in force: the loop has joined the name at its exit, or the
name was not known before. -/
theorem Loop.latest {cond : Expr String} {body : Block} {after final : Scope} {exits : Code}
    (h : Loop cond body s code after exits final) (hafter : after.Latest x)
    (hx : x ∈ assigned body) : final.Latest x := by
  by_cases hdiffer : s.Differ after x
  · exact h.meets.latest hdiffer
  · have hnext := h.meets.nextNumber_of_not_differ hdiffer
    have hnone : s.env.get? x = none :=
      not_not.mp fun hknown => hdiffer ((h.differ_iff x).mp (mem_carried.mpr ⟨hx, hknown⟩))
    exact hafter.congr (h.meets.current_of_left_none hnone) hnext

/-- A name that a block assigns ends in the greatest number that has been handed out. -/
theorem Numbers.latest (h : Numbers b s code s') (hv : s.Valid) (hx : x ∈ assigned b) :
    s'.Latest x := by
  induction h with
  | nil s => cases hx
  | @assign span a rest s s₁ s' more hclaim hrest ih =>
    have hv₁ := ((claims_of_claim hclaim).valid hv).advance a.target
    refine latest_cons (.assign hclaim (.nil _)) hrest hv ?_ (ih hv₁) hx
    intro hx
    cases List.mem_singleton.mp hx
    have henv : (s₁.advance a.target).env.get? a.target = some (s₁.nextNumber a.target) := by
      rw [env_advance, if_pos rfl]
    rw [Latest, current_of_get? henv, nextNumber_advance, if_pos rfl]
  | @check span cond rest s s₁ s' more hclaim hrest ih =>
    refine latest_cons (.check hclaim (.nil _)) hrest hv ?_
      (ih ((claims_of_claim hclaim).valid hv)) hx
    intro hx
    cases hx
  | @ifElse span cond t e rest s s₁ first second joined s' thenCode elseCode joins more hclaim ht
      he hjoin hrest iht ihe ih =>
    have hbranch := Branch.of_claim hv hclaim ht.step he.step hjoin
    exact latest_cons (.ifElse hclaim ht he hjoin (.nil joined)) hrest hv
      (hbranch.latest he (iht hbranch.valid) (ihe hbranch.elseValid)) (ih hbranch.step.valid) hx
  | @whileDo span cond body rest s s₁ after final s' code exits more hclaim hbody hexit hrest
      ihbody ih =>
    have hloop := Loop.of_claim hv hclaim hbody.step hexit
    exact latest_cons (.whileDo hclaim hbody hexit (.nil final)) hrest hv
      (fun hx => hloop.latest (ihbody (hloop.valid.advanceAll _) hx) hx) (ih hloop.step.valid) hx
  | forDo _ ih => exact ih hv (mem_assigned_forDo.mp hx)

end Block

/-! ## Programs -/

/-- The numbers of the versions of a name that are defined, in order. -/
def Code.numbersOf (x : String) (code : Code) : List Nat :=
  ((defined code).filter (·.base = x)).map Version.number

namespace Code

variable {P : String → Prop} {hi : String → Nat} {code : Code} {x : String} {n : Nat}

theorem mem_numbersOf :
    n ∈ numbersOf x code ↔ ∃ v ∈ defined code, v.base = x ∧ v.number = n := by
  simp [numbersOf, and_assoc]

theorem nodup_numbersOf (hnodup : (defined code).Nodup)
    (hunmarked : ∀ v ∈ defined code, v.marker = none) : (numbersOf x code).Nodup := by
  refine (hnodup.filter _).map_on ?_
  rintro ⟨y, m, k⟩ hv ⟨z, n, l⟩ hw hnumber
  rw [List.mem_filter, decide_eq_true_eq] at hv hw
  have hmarker : k = l := (hunmarked _ hv.1).trans (hunmarked _ hw.1).symm
  rw [Version.mk.injEq]
  exact ⟨hv.2.trans hw.2.symm, hnumber, hmarker⟩

/-- Code that is numbered from the start defines the numbers of a name from zero on, or from one on
if the name is an input. -/
theorem Fills.mem_numbersOf_iff (h : Fills P (fun _ => 0) hi code) :
    n ∈ numbersOf x code ↔ n < hi x ∧ ¬ (P x ∧ n = 0) := by
  rw [mem_numbersOf]
  constructor
  · rintro ⟨v, hv, rfl, rfl⟩
    exact ((h.defined v).mp hv).2.2
  · rintro ⟨hlt, hne⟩
    exact ⟨{ base := x, number := n }, (h.defined _).mpr ⟨rfl, Nat.zero_le _, hlt, hne⟩, rfl, rfl⟩

theorem Fills.numbersOf_perm (h : Fills P (fun _ => 0) hi code)
    (hnodup : (Code.defined code).Nodup)
    {start : Nat} (hstart : P x ∧ start = 1 ∨ ¬ P x ∧ start = 0) :
    (numbersOf x code).Perm (List.range' start (hi x - start)) := by
  have hunmarked : ∀ v ∈ Code.defined code, v.marker = none := fun v hv =>
    ((h.defined v).mp hv).1
  refine (List.perm_ext_iff_of_nodup (nodup_numbersOf hnodup hunmarked) List.nodup_range').mpr ?_
  intro n
  rw [h.mem_numbersOf_iff, List.mem_range'_1]
  rcases hstart with ⟨hx, rfl⟩ | ⟨hx, rfl⟩
  · simp only [hx, true_and]
    omega
  · simp only [hx, false_and, not_false_iff, and_true]
    omega

end Code

/-- The version of a name in which a block ends that is numbered from the start: the greatest one
that is defined, and zero if there is none. -/
theorem Block.Numbers.number_eq_max {b : Block} {s : Scope} {code : Code}
    (h : Numbers b {} code s) (x : String) :
    (s.current x).number = (Code.numbersOf x code).max?.getD 0 := by
  have hstep := h.step valid_empty
  have hmem : ∀ n, n ∈ Code.numbersOf x code ↔ _ := fun n => (h.fills valid_empty).mem_numbersOf_iff
  by_cases hempty : Code.numbersOf x code = []
  · rw [hempty]
    rcases hstep.origin x with horigin | hdefined
    · rw [horigin]
      rfl
    · exact absurd (Code.mem_numbersOf.mpr ⟨_, hdefined, rfl, rfl⟩) (hempty ▸ List.not_mem_nil)
  · obtain ⟨m, hm⟩ := List.exists_mem_of_ne_nil _ hempty
    obtain ⟨v, hv, rfl, rfl⟩ := Code.mem_numbersOf.mp hm
    have hlatest : (s.current v.base).number + 1 = s.nextNumber v.base :=
      h.latest valid_empty (hstep.targets v hv)
    have hmax : (Code.numbersOf v.base code).max? = some (s.current v.base).number := by
      rw [List.max?_eq_some_iff]
      constructor
      · -- if the greatest number is zero, it is the one that is defined
        rw [hmem] at hm ⊢
        refine ⟨by omega, fun hzero => hm.2 ⟨hzero.1, by omega⟩⟩
      · intro n hn
        have hlt := ((hmem n).mp hn).1
        omega
    rw [hmax, Option.getD_some]

/-- Every number but that of an input is spent on an instruction. -/
theorem Block.Numbers.nextNumber_le {b : Block} {s : Scope} {code : Code} (h : Numbers b {} code s)
    (x : String) : s.nextNumber x ≤ code.length + 1 := by
  obtain ⟨start, hstart, hle⟩ : ∃ start, (MakesInput b {} x ∧ start = 1 ∨
      ¬ MakesInput b {} x ∧ start = 0) ∧ start ≤ 1 := by
    by_cases hx : MakesInput b {} x
    · exact ⟨1, .inl ⟨hx, rfl⟩, Nat.le_refl 1⟩
    · exact ⟨0, .inr ⟨hx, rfl⟩, Nat.zero_le 1⟩
  have hperm := (h.fills valid_empty).numbersOf_perm (h.step valid_empty).within.nodup hstart
  have hcount : (Code.numbersOf x code).length = s.nextNumber x - start := by
    rw [hperm.length_eq, List.length_range']
  have hlength : (Code.numbersOf x code).length ≤ code.length := by
    rw [Code.numbersOf, List.length_map]
    exact Nat.le_trans (List.length_filter_le _ _) (List.length_filterMap_le _ _)
  omega

/-- No version of a program has a greater number than the program has instructions. So a counter of
32 bits is enough for every program with less than 2³² instructions. -/
theorem Program.number_le_length (p : Program) :
    ∃ f, p.toSsa = .ok f ∧
      ∀ v, v ∈ Code.defined f.code ∨ v ∈ Code.uses f.code → v.number ≤ f.code.length := by
  obtain ⟨code, s, h, hssa⟩ := p.exists_toSsa
  have hwithin := (h.step valid_empty).within
  refine ⟨_, hssa, ?_⟩
  intro v hv
  have hbelow : v.number < s.nextNumber v.base :=
    hv.elim (fun hdef => (hwithin.defined v hdef).1.2) fun huse => (hwithin.uses v huse).2
  have hle := h.nextNumber_le v.base
  show v.number ≤ code.length
  omega

/-- The numbering of a program makes a name an input. -/
def Program.IsInput (p : Program) (x : String) : Prop :=
  Block.MakesInput p.statements {} x

/-- The versions of a name have no gaps: those that the code defines are numbered from zero on, or
from one on if the name is an input, each number once. The program ends with a version of every name
that it assigns or reads and of no other, the greatest one that is defined, or zero if none is. -/
theorem Program.versions_dense (p : Program) :
    ∃ f, p.toSsa = .ok f ∧
      (∀ x, ∃ start count, (p.IsInput x ∧ start = 1 ∨ ¬ p.IsInput x ∧ start = 0) ∧
        (Code.numbersOf x f.code).Perm (List.range' start count)) ∧
      f.finals.keys = sortNames (Block.assigned p.statements ++ Block.reads p.statements) ∧
      ∀ x ∈ f.finals.keys, f.finals.get? x =
        some { base := x, number := (Code.numbersOf x f.code).max?.getD 0 } := by
  obtain ⟨code, s, h, hssa⟩ := p.exists_toSsa
  have hstep := h.step valid_empty
  refine ⟨_, hssa, ?_, ?_, ?_⟩
  · intro x
    have hstart : ∃ start, p.IsInput x ∧ start = 1 ∨ ¬ p.IsInput x ∧ start = 0 := by
      by_cases hx : p.IsInput x
      · exact ⟨1, .inl ⟨hx, rfl⟩⟩
      · exact ⟨0, .inr ⟨hx, rfl⟩⟩
    obtain ⟨start, hstart⟩ := hstart
    exact ⟨start, _, hstart, (h.fills valid_empty).numbersOf_perm hstep.within.nodup hstart⟩
  · refine (NameMap.sorted_keys _).eq_of_mem_iff (pairwise_sortNames _) ?_
    intro x
    rw [NameMap.mem_keys, NameMap.get?_mapValues, mem_sortNames, List.mem_append, Ne,
      Option.map_eq_none_iff, ← Ne, hstep.known x]
    simp [or_comm]
  · intro x hx
    rw [NameMap.mem_keys] at hx
    rw [NameMap.get?_mapValues] at hx ⊢
    obtain ⟨n, hn⟩ := Option.ne_none_iff_exists'.mp (mt (congrArg _) hx)
    rw [hn, Option.map_some, ← h.number_eq_max x, current_of_get? hn]

end WhileSmt
