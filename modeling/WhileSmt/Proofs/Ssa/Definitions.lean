import WhileSmt.Proofs.Optimize.DeadCode
import WhileSmt.Proofs.Ssa.Statements

/-!
The definitions in the code of a program. Assignments become definitions in the order of the text,
and the version of a name at the end is the last one that is defined. Whether an assignment or a
join defines it can be read off the program.

Main statements: `Block.Numbers.map_base_targets` for the order, and `Block.Numbers.endsWith` for
the last definition.
-/

namespace WhileSmt

open Scope

/-! ## The order of assignments -/

mutual

/-- The targets of the assignments of a statement in the order in which they are numbered: the
first arm before the second, and the second assignment of a counting loop after its body. -/
def Stmt.targets : Stmt → List String
  | .assign _ a => [a.target]
  | .check _ _ => []
  | .ifElse _ _ t e => Block.targets t ++ Block.targets e
  | .whileDo _ _ body => Block.targets body
  | .forDo _ init _ update body => init.target :: (Block.targets body ++ [update.target])

/-- The names that the assignments of a block write, in their order. -/
def Block.targets : List Stmt → List String
  | [] => []
  | stmt :: rest => stmt.targets ++ Block.targets rest

end

theorem Code.targets_append (c₁ c₂ : Code) : targets (c₁ ++ c₂) = targets c₁ ++ targets c₂ :=
  List.filterMap_append

/-- The target of an assignment. -/
def SimpleStmt.target? : SimpleStmt → Option String
  | assign a => some a.target
  | check _ => none

namespace Block

theorem targets_append (b₁ b₂ : Block) : targets (b₁ ++ b₂) = targets b₁ ++ targets b₂ := by
  induction b₁ with
  | nil => rfl
  | cons stmt rest ih => simp [targets, ih]

/-- The targets of the assignments of a block are the names that it assigns. -/
theorem mem_targets {b : Block} {x : String} : x ∈ targets b ↔ x ∈ assigned b := by
  induction b using inductionOn with
  | nil => exact Iff.rfl
  | assign span a rest ih => simp [targets, Stmt.targets, assigned, Stmt.assigned, ih]
  | check span cond rest ih => simp [targets, Stmt.targets, assigned, Stmt.assigned, ih]
  | ifElse span cond t e rest iht ihe ih =>
    simp [targets, Stmt.targets, assigned, Stmt.assigned, iht, ihe, ih]
  | whileDo span cond body rest ihbody ih =>
    simp [targets, Stmt.targets, assigned, Stmt.assigned, ihbody, ih]
  | forDo span init cond update body rest ih =>
    rw [mem_assigned_forDo, ← ih]
    simp [counting, targets, Stmt.targets, targets_append]

theorem targets_eq (b : Block) : targets b = (simples b).filterMap SimpleStmt.target? := by
  induction b using inductionOn with
  | nil => rfl
  | assign span a rest ih | check span cond rest ih =>
    simp [targets, Stmt.targets, simples, Stmt.simples, List.filterMap_cons, SimpleStmt.target?, ih]
  | ifElse span cond t e rest iht ihe ih =>
    simp [targets, Stmt.targets, simples, Stmt.simples, iht, ihe, ih]
  | whileDo span cond body rest ihbody ih =>
    simp [targets, Stmt.targets, simples, Stmt.simples, ihbody, ih]
  | forDo span init cond update body rest ih =>
    rw [simples_forDo, ← ih]
    simp [counting, targets, Stmt.targets, targets_append]

/-- The definitions in the code of a block are those of its assignments, in order. -/
theorem Numbers.map_base_targets {b : Block} {s s' : Scope} {code : Code} (h : Numbers b s code s')
    (hv : s.Valid) : (Code.targets code).map Version.base = targets b := by
  rw [targets_eq, ← h.simples_eq hv, Code.targets, Code.simples, List.map_filterMap,
    List.filterMap_filterMap]
  congr 1
  funext instr
  cases instr <;> rfl

end Block

/-! ## The last definition of a name -/

/-- Whether an instruction defines a version of a name. -/
def Instr.definesName (x : String) (instr : Instr) : Bool :=
  instr.defined?.any (·.base = x)

theorem Instr.definesName_iff {x : String} {instr : Instr} :
    instr.definesName x = true ↔ ∃ v, instr.defined? = some v ∧ v.base = x := by
  unfold definesName
  cases instr.defined? with
  | none => simp
  | some v => simp

/-- The last instruction that defines a version of a name. -/
def Code.lastDefinition? (x : String) (code : Code) : Option Instr :=
  (code.filter (Instr.definesName x)).getLast?

namespace Code

variable {x : String} {code : Code} {instr : Instr}

theorem lastDefinition?_append (x : String) (c₁ c₂ : Code) :
    lastDefinition? x (c₁ ++ c₂) = (lastDefinition? x c₂).or (lastDefinition? x c₁) := by
  rw [lastDefinition?, List.filter_append, List.getLast?_append]
  rfl

theorem lastDefinition?_eq_none (h : ∀ v ∈ defined code, v.base ≠ x) :
    lastDefinition? x code = none := by
  rw [lastDefinition?, List.getLast?_eq_none_iff, List.filter_eq_nil_iff]
  intro instr hmem hdef
  obtain ⟨v, hv, hbase⟩ := Instr.definesName_iff.mp hdef
  exact h v (mem_defined.mpr ⟨instr, hmem, hv⟩) hbase

theorem lastDefinition?_eq_some (hmem : instr ∈ code) (hdef : instr.definesName x = true)
    (honly : ∀ i ∈ code, i.definesName x = true → i = instr) :
    lastDefinition? x code = some instr := by
  have hne : code.filter (Instr.definesName x) ≠ [] :=
    List.ne_nil_of_mem (List.mem_filter.mpr ⟨hmem, hdef⟩)
  have hlast := List.mem_filter.mp (List.getLast_mem hne)
  rw [lastDefinition?, List.getLast?_eq_some_getLast hne, honly _ hlast.1 hlast.2]

/-- The last definition of a name in a piece of code defines the given version, by a join or by an
assignment. -/
def EndsWith (x : String) (code : Code) (v : Version) (joined : Bool) : Prop :=
  ∃ instr, lastDefinition? x code = some instr ∧ instr.defined? = some v ∧
    instr.target?.isNone = joined

variable {c₁ c₂ : Code} {v : Version} {joined : Bool}

theorem EndsWith.append_left (h : EndsWith x c₁ v joined) (hnone : lastDefinition? x c₂ = none) :
    EndsWith x (c₁ ++ c₂) v joined := by
  obtain ⟨instr, hlast, hdef, hjoin⟩ := h
  exact ⟨instr, by rw [lastDefinition?_append, hnone, hlast, Option.none_or], hdef, hjoin⟩

theorem EndsWith.append_right (h : EndsWith x c₂ v joined) : EndsWith x (c₁ ++ c₂) v joined := by
  obtain ⟨instr, hlast, hdef, hjoin⟩ := h
  exact ⟨instr, by rw [lastDefinition?_append, hlast, Option.some_or], hdef, hjoin⟩

end Code

namespace Scope.Meets

variable {guard : Expr Version} {one : NameMap Nat} {s s' first : Scope} {code : Code} {x : String}

theorem current_of_left_none (h : Meets guard one s code s') (hx : one.get? x = none) :
    s'.current x = s.current x := by
  rcases h.cases x with ⟨-, hsome, -⟩ | ⟨-, henv⟩ | ⟨a, b, ha, -, -⟩
  · exact absurd hx hsome
  · exact current_congr henv
  · exact absurd hx (ha ▸ Option.some_ne_none a)

theorem current_of_right_none (h : Meets guard first.env s code s') {a : Nat}
    (ha : first.env.get? x = some a) (hx : s.env.get? x = none) :
    s'.current x = first.current x := by
  rcases h.cases x with ⟨henv, -, -⟩ | ⟨hnone, -⟩ | ⟨a, b, -, hb, -⟩
  · exact current_congr henv
  · exact absurd hnone (ha ▸ Option.some_ne_none a)
  · exact absurd hx (hb ▸ Option.some_ne_none b)

/-- Where two paths meet that differ on a name, its last definition is a join. -/
theorem endsWith (h : Meets guard one s code s') {a b : Nat} (ha : one.get? x = some a)
    (hb : s.env.get? x = some b) (hab : a ≠ b) :
    Code.EndsWith x code (s'.current x) true := by
  rw [(h.current_of_ne ha hb hab).1]
  refine ⟨_, Code.lastDefinition?_eq_some (h.mem_code.mpr ⟨x, a, b, ha, hb, hab, rfl⟩) ?_ ?_, rfl,
    rfl⟩
  · exact Instr.definesName_iff.mpr ⟨_, rfl, rfl⟩
  · intro i hi hdef
    obtain ⟨y, a', b', ha', hb', -, rfl⟩ := h.mem_code.mp hi
    obtain ⟨v, hv, hbase⟩ := Instr.definesName_iff.mp hdef
    cases hv
    cases hbase
    rw [ha] at ha'
    rw [hb] at hb'
    cases ha'
    cases hb'
    rfl

/-- Where two paths meet of which only one knows a name, no join defines it. -/
theorem lastDefinition_none (h : Meets guard one s code s')
    (hx : one.get? x = none ∨ s.env.get? x = none) : Code.lastDefinition? x code = none := by
  refine Code.lastDefinition?_eq_none ?_
  rintro v hv rfl
  obtain ⟨y, a, b, ha, hb, -, rfl⟩ := h.defined hv
  rcases hx with hx | hx
  · rw [hx] at ha
    cases ha
  · rw [hx] at hb
    cases hb

end Scope.Meets

mutual

/-- Whether the last definition of a name in the code of a statement is a join, given whether the
name is known before the statement. A branch joins a name that both arms assign, or that one of them
does and that is known; a loop joins a known name. -/
def Stmt.endsInJoin (x : String) (known : Bool) : Stmt → Bool
  | .assign _ _ => false
  | .check _ _ => false
  | .ifElse _ cond t e =>
    x ∈ Block.assigned t && x ∈ Block.assigned e ||
      (known || x ∈ cond.names ++ Block.reads t ++ Block.reads e) &&
        x ∈ Block.assigned t ++ Block.assigned e ||
      Block.endsInJoin x false t || Block.endsInJoin x false e
  | .whileDo _ cond body =>
    (known || x ∈ cond.names ++ Block.reads body) && x ∈ Block.assigned body ||
      Block.endsInJoin x false body
  | .forDo _ init cond update body =>
    (known || x ∈ init.target :: init.value.names ||
        x ∈ cond.names ++ (Block.reads body ++ update.value.names)) &&
        x ∈ Block.assigned body ++ [update.target] ||
      x ≠ update.target && Block.endsInJoin x false body

/-- The same for the code of a block, whose statements are numbered one after the other. -/
def Block.endsInJoin (x : String) (known : Bool) : List Stmt → Bool
  | [] => false
  | stmt :: rest =>
    if x ∈ Block.assigned rest then
      Block.endsInJoin x (known || x ∈ stmt.reads ++ stmt.assigned) rest
    else stmt.endsInJoin x known

end

mutual

/-- A name that is not assigned is not joined. -/
theorem Stmt.endsInJoin_eq_false {x : String} {known : Bool} :
    ∀ {stmt : Stmt}, x ∉ stmt.assigned → stmt.endsInJoin x known = false
  | .assign _ _, _ => rfl
  | .check _ _, _ => rfl
  | .ifElse _ cond t e, h => by
    rw [Stmt.assigned, List.mem_append, not_or] at h
    simp [Stmt.endsInJoin, h.1, h.2, Block.endsInJoin_eq_false h.1, Block.endsInJoin_eq_false h.2]
  | .whileDo _ cond body, h => by
    rw [Stmt.assigned] at h
    simp [Stmt.endsInJoin, h, Block.endsInJoin_eq_false h]
  | .forDo _ init cond update body, h => by
    simp only [Stmt.assigned, List.mem_cons, not_or] at h
    simp [Stmt.endsInJoin, h.2.1, h.2.2, Block.endsInJoin_eq_false h.2.2]

theorem Block.endsInJoin_eq_false {x : String} {known : Bool} :
    ∀ {b : List Stmt}, x ∉ Block.assigned b → Block.endsInJoin x known b = false
  | [], _ => rfl
  | stmt :: rest, h => by
    rw [Block.assigned, List.mem_append, not_or] at h
    rw [Block.endsInJoin, if_neg h.2, Stmt.endsInJoin_eq_false h.1]

end

/-- A statement makes the names that it reads known. -/
theorem Stmt.endsInJoin_or_reads (x : String) (known : Bool) (stmt : Stmt) :
    stmt.endsInJoin x (known || decide (x ∈ stmt.reads)) = stmt.endsInJoin x known := by
  cases stmt with
  | assign span a => rfl
  | check span cond => rfl
  | ifElse span cond t e => simp [endsInJoin, reads]
  | whileDo span cond body => simp [endsInJoin, reads]
  | forDo span init cond update body =>
    rw [endsInJoin, endsInJoin, Bool.eq_iff_iff]
    simp only [reads, Bool.or_eq_true, Bool.and_eq_true, decide_eq_true_eq, List.mem_append,
      List.mem_cons]
    grind

namespace Block

theorem endsInJoin_concat (x : String) (known : Bool) (b : Block) (span : Span) (a : Assignment) :
    endsInJoin x known (b ++ [.assign span a]) =
      (x ≠ a.target && endsInJoin x known b) := by
  induction b generalizing known with
  | nil => simp [endsInJoin, assigned, Stmt.endsInJoin]
  | cons stmt rest ih =>
    rw [List.cons_append, endsInJoin, endsInJoin, ih, assigned_append]
    by_cases hx : x = a.target
    · simp [assigned, Stmt.assigned, hx]
    · simp [assigned, Stmt.assigned, hx]

theorem endsInJoin_forDo (x : String) (known : Bool) (span : Span) (init update : Assignment)
    (cond : Expr String) (body rest : Block) :
    endsInJoin x known (.forDo span init cond update body :: rest) =
      endsInJoin x known (counting span init cond update body ++ rest) := by
  have hloop : assigned (body ++ [.assign span update]) = assigned body ++ [update.target] := by
    simp [assigned_append, assigned, Stmt.assigned]
  have hreads : reads (body ++ [.assign span update]) = reads body ++ update.value.names := by
    simp [reads_append, reads, Stmt.reads]
  rw [counting, List.cons_append, List.cons_append, List.nil_append, endsInJoin, endsInJoin,
    endsInJoin]
  by_cases hrest : x ∈ assigned rest
  · -- the join is one of the statements that follow
    have hknown : (known || decide (x ∈ (Stmt.forDo span init cond update body).reads ++
          (Stmt.forDo span init cond update body).assigned)) =
        (known || decide (x ∈ (Stmt.assign span init).reads ++ (Stmt.assign span init).assigned) ||
          decide (x ∈ (Stmt.whileDo span cond (body ++ [.assign span update])).reads ++
            (Stmt.whileDo span cond (body ++ [.assign span update])).assigned)) := by
      rw [Bool.eq_iff_iff]
      simp only [Stmt.reads, Stmt.assigned, hloop, hreads, Bool.or_eq_true, decide_eq_true_eq,
        List.mem_append, List.mem_cons, List.not_mem_nil, or_false]
      grind
    have hlater : x ∈ assigned (.whileDo span cond (body ++ [.assign span update]) :: rest) :=
      List.mem_append_right _ hrest
    rw [if_pos hrest, if_pos hlater, if_pos hrest, hknown]
  · have hassigned : x ∈ assigned (.whileDo span cond (body ++ [.assign span update]) :: rest) ↔
        x ∈ assigned body ++ [update.target] := by
      rw [assigned, Stmt.assigned, hloop, List.mem_append, or_iff_left hrest]
    rw [if_neg hrest, if_neg hrest, Stmt.endsInJoin, Stmt.endsInJoin, Stmt.endsInJoin,
      endsInJoin_concat, hloop, hreads]
    by_cases hx : x ∈ assigned body ++ [update.target]
    · rw [if_pos (hassigned.mpr hx)]
      simp [Stmt.reads, Stmt.assigned, or_comm, or_left_comm]
    · rw [if_neg (mt hassigned.mp hx)]
      simp [hx, endsInJoin_eq_false fun hmem => hx (List.mem_append_left _ hmem)]

end Block

/-! ## Whether the last definition is a join -/

theorem Scope.Step.contains_eq {w r : List String} {s s' : Scope} {code : Code}
    (h : Step w r s code s') (x : String) :
    s'.env.contains x = (s.env.contains x || decide (x ∈ r ++ w)) := by
  rw [Bool.eq_iff_iff]
  simpa [NameMap.contains, Option.isSome_iff_ne_none] using h.known x

/-- A step from a scope that knows what is read makes the written names known. -/
theorem Scope.Step.env_ne_none {w r : List String} {s s' : Scope} {code : Code}
    (h : Step w r s code s') (hr : ∀ x ∈ r, s.env.get? x ≠ none) (x : String) :
    s'.env.get? x ≠ none ↔ s.env.get? x ≠ none ∨ x ∈ w := by
  rw [h.known x, ← or_assoc, or_iff_left_of_imp (hr x)]

theorem Scope.Step.lastDefinition?_eq_none {w r : List String} {s s' : Scope} {code : Code}
    (h : Step w r s code s') {x : String} (hx : x ∉ w) : Code.lastDefinition? x code = none := by
  refine Code.lastDefinition?_eq_none ?_
  rintro v hv rfl
  exact hx (h.targets v hv)

theorem Scope.contains_of_claim {s s₁ : Scope} {stmt : Stmt}
    (h : s.claim stmt.readNames = .ok s₁) (x : String) :
    s₁.env.contains x = (s.env.contains x || decide (x ∈ stmt.reads)) := by
  rw [Bool.eq_iff_iff]
  simpa [NameMap.contains, Option.isSome_iff_ne_none, Stmt.readNames, mem_sortNames] using
    (claims_of_claim h).env_ne_none

namespace Block

variable {cond : Expr String} {t e body : Block} {s first second joined after final : Scope}
  {thenCode elseCode joins code exits : Code} {x : String}

theorem Branch.first_ne_none (h : Branch cond t e s thenCode first elseCode second joins joined) :
    first.env.get? x ≠ none ↔ s.env.get? x ≠ none ∨ x ∈ assigned t :=
  h.thenStep.env_ne_none
    (fun y hy => h.known y (List.mem_append_left _ (List.mem_append_right _ hy))) x

theorem Branch.second_ne_none (h : Branch cond t e s thenCode first elseCode second joins joined) :
    second.env.get? x ≠ none ↔ s.env.get? x ≠ none ∨ x ∈ assigned e :=
  h.elseStep.env_ne_none (fun y hy => h.known y (List.mem_append_right _ hy)) x

/-- The arms of a branch end in different versions of a name that one of them assigns. -/
theorem Branch.number_ne (h : Branch cond t e s thenCode first elseCode second joins joined)
    (hx : x ∈ assigned t ++ assigned e) {a b : Nat} (ha : first.env.get? x = some a)
    (hb : second.env.get? x = some b) : a ≠ b := by
  have hfirst := h.thenStep.valid x a ha
  by_cases he : x ∈ assigned e
  · -- the second arm numbers on from where the first one ended
    obtain ⟨n, hn, hle⟩ := h.elseStep.env_of_written he
    rw [hb] at hn
    cases hn
    exact Nat.ne_of_lt (Nat.lt_of_lt_of_le hfirst hle)
  · have ht : x ∈ assigned t := (List.mem_append.mp hx).resolve_right he
    obtain ⟨n, hn, hle⟩ := h.thenStep.env_of_written ht
    rw [ha] at hn
    cases hn
    have hknown : s.env.get? x ≠ none :=
      (h.second_ne_none.mp (hb ▸ Option.some_ne_none b)).resolve_right he
    have hlt := h.valid.current_lt hknown
    have hkept : second.current x = s.current x := h.elseStep.kept x he
    rw [← hkept, current_of_get? hb] at hlt
    exact (Nat.ne_of_lt (Nat.lt_of_lt_of_le hlt hle)).symm

/-- A branch ends in a join of a name if both arms know it, and otherwise like the arm that
assigns it. -/
theorem Branch.endsWith {span : Span}
    (h : Branch cond t e s thenCode first elseCode second joins joined)
    (ht : x ∈ assigned t → Code.EndsWith x thenCode (first.current x)
      (endsInJoin x (s.env.contains x) t))
    (he : x ∈ assigned e → Code.EndsWith x elseCode (second.current x)
      (endsInJoin x (s.env.contains x) e))
    (hx : x ∈ assigned t ++ assigned e) :
    Code.EndsWith x (thenCode ++ elseCode ++ joins) (joined.current x)
      ((Stmt.ifElse span cond t e).endsInJoin x (s.env.contains x)) := by
  have hfirst := h.first_ne_none (x := x)
  have hsecond := h.second_ne_none (x := x)
  cases ha : first.env.get? x with
  | none =>
    -- the first arm does not know the name, so the second arm decides
    rw [ha, ne_self_iff_false, false_iff, not_or, not_not] at hfirst
    have hxe : x ∈ assigned e := (List.mem_append.mp hx).resolve_left hfirst.2
    have hread := mt (h.known x) (not_not_intro hfirst.1)
    have hend : (Stmt.ifElse span cond t e).endsInJoin x (s.env.contains x) =
        endsInJoin x (s.env.contains x) e := by
      rw [Stmt.endsInJoin, decide_eq_false hread]
      simp [NameMap.contains, hfirst.1, hfirst.2, endsInJoin_eq_false hfirst.2]
    rw [h.meets.current_of_left_none ha, hend]
    exact (he hxe).append_right.append_left (h.meets.lastDefinition_none (.inl ha))
  | some a =>
    cases hb : second.env.get? x with
    | none =>
      rw [hb, ne_self_iff_false, false_iff, not_or, not_not] at hsecond
      have hxt : x ∈ assigned t := (List.mem_append.mp hx).resolve_right hsecond.2
      have hread := mt (h.known x) (not_not_intro hsecond.1)
      have hend : (Stmt.ifElse span cond t e).endsInJoin x (s.env.contains x) =
          endsInJoin x (s.env.contains x) t := by
        rw [Stmt.endsInJoin, decide_eq_false hread]
        simp [NameMap.contains, hsecond.1, hsecond.2, endsInJoin_eq_false hsecond.2]
      rw [h.meets.current_of_right_none ha hb, hend]
      exact ((ht hxt).append_left (h.elseStep.lastDefinition?_eq_none hsecond.2)).append_left
        (h.meets.lastDefinition_none (.inr hb))
    | some b =>
      have hend : (Stmt.ifElse span cond t e).endsInJoin x (s.env.contains x) = true := by
        rcases hfirst.mp (ha ▸ Option.some_ne_none a) with hs | hxt
        · simp [Stmt.endsInJoin, NameMap.contains, Option.isSome_iff_ne_none.mpr hs, hx]
        · rcases hsecond.mp (hb ▸ Option.some_ne_none b) with hs | hxe
          · simp [Stmt.endsInJoin, NameMap.contains, Option.isSome_iff_ne_none.mpr hs, hxt]
          · simp [Stmt.endsInJoin, hxt, hxe]
      rw [hend]
      exact (h.meets.endsWith ha hb (h.number_ne hx ha hb)).append_right

/-- A loop ends in a join of a name that it carries, and otherwise like its body. -/
theorem Loop.endsWith {span : Span} (h : Loop cond body s code after exits final)
    (hbody : Code.EndsWith x code (after.current x)
      (endsInJoin x ((s.advanceAll (carried body s)).env.contains x) body))
    (hx : x ∈ assigned body) :
    Code.EndsWith x (code ++ s.entryCode after (carried body s) ++ exits) (final.current x)
      ((Stmt.whileDo span cond body).endsInJoin x (s.env.contains x)) := by
  obtain ⟨b, hb, hle⟩ := h.bodyStep.env_of_written hx
  rw [nextNumber_advanceAll (nodup_carried body s)] at hle
  cases ha : s.env.get? x with
  | none =>
    have hcarried : x ∉ carried body s := fun hmem => (mem_carried.mp hmem).2 ha
    have hread := mt (h.known x) (not_not_intro ha)
    have hentry : Code.lastDefinition? x (s.entryCode after (carried body s)) = none := by
      refine Code.lastDefinition?_eq_none ?_
      rintro v hv rfl
      obtain ⟨y, hy, rfl⟩ := mem_defined_entryCode.mp hv
      exact hcarried hy
    have hend : (Stmt.whileDo span cond body).endsInJoin x (s.env.contains x) =
        endsInJoin x ((s.advanceAll (carried body s)).env.contains x) body := by
      simp [Stmt.endsInJoin, NameMap.contains, env_advanceAll (nodup_carried body s), hcarried, ha,
        hread]
    rw [h.meets.current_of_left_none ha, hend]
    exact (hbody.append_left hentry).append_left (h.meets.lastDefinition_none (.inl ha))
  | some a =>
    have hcarried : x ∈ carried body s := mem_carried.mpr ⟨hx, ha ▸ Option.some_ne_none a⟩
    have hlt := h.valid x a ha
    rw [if_pos hcarried] at hle
    have hend : (Stmt.whileDo span cond body).endsInJoin x (s.env.contains x) = true := by
      simp [Stmt.endsInJoin, NameMap.contains, ha, hx]
    rw [hend]
    exact (h.meets.endsWith ha hb (by omega)).append_right

/-- The last definition of a name in a block is in its last statement that assigns the name. -/
theorem Numbers.endsWith_cons {stmt : Stmt} {rest : Block} {s s₁ s' : Scope} {c₁ c₂ : Code}
    (h₁ : Numbers [stmt] s c₁ s₁) (h₂ : Numbers rest s₁ c₂ s') (hv : s.Valid)
    (hhead : x ∈ stmt.assigned → Code.EndsWith x c₁ (s₁.current x)
      (stmt.endsInJoin x (s.env.contains x)))
    (hrest : x ∈ assigned rest → Code.EndsWith x c₂ (s'.current x)
      (endsInJoin x (s₁.env.contains x) rest))
    (hx : x ∈ assigned (stmt :: rest)) :
    Code.EndsWith x (c₁ ++ c₂) (s'.current x)
      (endsInJoin x (s.env.contains x) (stmt :: rest)) := by
  have hstep₁ := h₁.step hv
  have hstep₂ := h₂.step hstep₁.valid
  rw [endsInJoin]
  split
  · next hlater =>
    have hcontains : s₁.env.contains x =
        (s.env.contains x || decide (x ∈ stmt.reads ++ stmt.assigned)) := by
      rw [hstep₁.contains_eq x]
      simp [reads, assigned]
    rw [← hcontains]
    exact (hrest hlater).append_right
  · next hlater =>
    rw [hstep₂.kept x hlater]
    exact (hhead ((List.mem_append.mp hx).resolve_right hlater)).append_left
      (hstep₂.lastDefinition?_eq_none hlater)

/-- The version of an assigned name that is in force after a block is the last one that its code
defines, and the block says whether a join defines it. -/
theorem Numbers.endsWith {b : Block} {s s' : Scope} {code : Code} (h : Numbers b s code s')
    (hv : s.Valid) (hx : x ∈ assigned b) :
    Code.EndsWith x code (s'.current x) (endsInJoin x (s.env.contains x) b) := by
  induction h with
  | nil s => cases hx
  | @assign span a rest s s₁ s' more hclaim hmore ih =>
    have hv₁ := ((claims_of_claim hclaim).valid hv).advance a.target
    refine endsWith_cons (.assign hclaim (.nil _)) hmore hv ?_ (ih hv₁) hx
    intro hx
    cases List.mem_singleton.mp hx
    have hcurrent : (s₁.advance a.target).current a.target =
        { base := a.target, number := s₁.nextNumber a.target } :=
      current_of_get? (by rw [env_advance, if_pos rfl])
    rw [hcurrent]
    refine ⟨_, Code.lastDefinition?_eq_some List.mem_cons_self ?_ ?_, rfl, rfl⟩
    · exact Instr.definesName_iff.mpr ⟨_, rfl, rfl⟩
    · intro i hi _
      exact List.mem_singleton.mp hi
  | @check span cond rest s s₁ s' more hclaim hmore ih =>
    exact endsWith_cons (.check hclaim (.nil _)) hmore hv (fun hx => nomatch hx)
      (ih ((claims_of_claim hclaim).valid hv)) hx
  | @ifElse span cond t e rest s s₁ first second joined s' thenCode elseCode joins more hclaim ht
      he hjoin hmore iht ihe ih =>
    have hbranch := Branch.of_claim hv hclaim ht.step he.step hjoin
    have hhead := Numbers.ifElse hclaim ht he hjoin (.nil joined)
    rw [List.append_nil] at hhead
    refine endsWith_cons hhead hmore hv ?_ (ih hbranch.step.valid) hx
    rw [← Stmt.endsInJoin_or_reads, ← contains_of_claim hclaim]
    exact hbranch.endsWith (iht hbranch.valid) (ihe hbranch.elseValid)
  | @whileDo span cond body rest s s₁ after final s' code exits more hclaim hbody hexit hmore
      ihbody ih =>
    have hloop := Loop.of_claim hv hclaim hbody.step hexit
    have hhead := Numbers.whileDo hclaim hbody hexit (.nil final)
    rw [List.append_nil] at hhead
    refine endsWith_cons hhead hmore hv ?_ (ih hloop.step.valid) hx
    rw [← Stmt.endsInJoin_or_reads, ← contains_of_claim hclaim]
    exact fun hx => hloop.endsWith (ihbody (hloop.valid.advanceAll _) hx) hx
  | @forDo span init update cond body rest s s' code _ ih =>
    rw [endsInJoin_forDo]
    exact ih hv (mem_assigned_forDo.mp hx)

end Block

end WhileSmt
