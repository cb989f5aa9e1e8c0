import WhileSmt.Proofs.Ssa.Derivation

/-!
What the code keeps of a program. Every assignment becomes a definition and every assertion stays
one, once and in the order of the text; all else that the code holds are joins. A loop is numbered
in one pass, so its body occurs once, however often it runs.

Main statements: the code of a block without its joins and its numbers is the block without its
branches and loops (`Block.Numbers.simples_eq`), and what this says of a program
(`Program.statements_kept`).
-/

namespace WhileSmt

open Scope

/-! ## Simple statements -/

/-- An assignment or an assertion, without its place. -/
inductive SimpleStmt where
  | assign (a : Assignment)
  | check (cond : Expr String)
deriving DecidableEq

/-- The assignments among them. -/
def SimpleStmt.isAssign : SimpleStmt → Bool
  | assign _ => true
  | check _ => false

/-- The assertions among them. -/
def SimpleStmt.isCheck : SimpleStmt → Bool
  | assign _ => false
  | check _ => true

mutual

/-- The assignments and assertions of a statement in the order of the text: the first arm before the
second, and the second assignment of a counting loop after its body. -/
def Stmt.simples : Stmt → List SimpleStmt
  | .assign _ a => [.assign a]
  | .check _ cond => [.check cond]
  | .ifElse _ _ t e => Block.simples t ++ Block.simples e
  | .whileDo _ _ body => Block.simples body
  | .forDo _ init _ update body => .assign init :: (Block.simples body ++ [.assign update])

/-- The assignments and assertions of a block, at all depths. -/
def Block.simples : List Stmt → List SimpleStmt
  | [] => []
  | stmt :: rest => stmt.simples ++ Block.simples rest

end

namespace Block

theorem simples_append (b₁ b₂ : Block) : simples (b₁ ++ b₂) = simples b₁ ++ simples b₂ := by
  induction b₁ with
  | nil => rfl
  | cons stmt rest ih => simp [simples, ih]

theorem simples_forDo (span : Span) (init : Assignment) (cond : Expr String) (update : Assignment)
    (body rest : Block) :
    simples (.forDo span init cond update body :: rest) =
      simples (counting span init cond update body ++ rest) := by
  simp [counting, simples, Stmt.simples, simples_append]

/-- A block counts as many assignments and assertions as it lists. -/
theorem countP_simples (b : Block) :
    (simples b).countP SimpleStmt.isAssign = (counts b).assignments ∧
      (simples b).countP SimpleStmt.isCheck = (counts b).assertions := by
  induction b using inductionOn with
  | nil => exact ⟨rfl, rfl⟩
  | assign span a rest ih | check span cond rest ih =>
    simp only [simples, Stmt.simples, counts, Stmt.counts, Counts.assignments_add,
      Counts.assertions_add, List.singleton_append, List.countP_cons, ih, SimpleStmt.isAssign,
      SimpleStmt.isCheck]
    simp [Nat.add_comm]
  | ifElse span cond t e rest iht ihe ih =>
    simp only [simples, Stmt.simples, counts, Stmt.counts, Counts.assignments_add,
      Counts.assertions_add, List.countP_append, iht, ihe, ih, Nat.zero_add, true_and]
  | whileDo span cond body rest ihbody ih =>
    simp only [simples, Stmt.simples, counts, Stmt.counts, Counts.assignments_add,
      Counts.assertions_add, List.countP_append, ihbody, ih, Nat.zero_add, true_and]
  | forDo span init cond update body rest ih =>
    rw [simples_forDo, counts_forDo]
    exact ih

end Block

/-! ## Erasing numbers -/

theorem Expr.map_map_of_leftInverse {ν μ : Type} {f : ν → μ} {g : μ → ν} (h : ∀ x, g (f x) = x)
    (e : Expr ν) : (e.map f).map g = e := by
  induction e with
  | lit n => rfl
  | var x => simp only [map, h]
  | index a i ih => simp only [map, h, ih]
  | unary op e ih => simp only [map, ih]
  | binary op l r ihl ihr => simp only [map, ihl, ihr]

@[simp] theorem Scope.map_base_resolve (s : Scope) (e : Expr String) :
    (s.resolve e).map Version.base = e :=
  Expr.map_map_of_leftInverse (fun _ => rfl) e

namespace Instr

/-- The instructions that come from assignments. -/
def isDefine : Instr → Bool
  | define .. => true
  | _ => false

/-- The instructions that come from assertions. -/
def isCheck : Instr → Bool
  | check _ => true
  | _ => false

/-- The instructions that join versions. -/
def isJoin : Instr → Bool
  | join .. => true
  | _ => false

/-- The simple statement that an instruction stands for, without the numbers of its versions; a join
stands for none. -/
def simple? : Instr → Option SimpleStmt
  | define target value =>
    some (.assign { target := target.base, value := value.map Version.base })
  | join .. => none
  | check cond => some (.check (cond.map Version.base))

end Instr

namespace Code

/-- The simple statements that a list of instructions stands for, in order. -/
def simples (code : Code) : List SimpleStmt :=
  code.filterMap Instr.simple?

theorem simples_append (c₁ c₂ : Code) : simples (c₁ ++ c₂) = simples c₁ ++ simples c₂ :=
  List.filterMap_append

theorem simples_eq_nil {code : Code} (h : ∀ instr ∈ code, instr.isJoin = true) :
    simples code = [] := by
  refine List.filterMap_eq_nil_iff.mpr ?_
  intro instr hmem
  cases instr with
  | join result operands guard => rfl
  | define | check => cases h _ hmem

theorem countP_isDefine (code : Code) :
    code.countP Instr.isDefine = (simples code).countP SimpleStmt.isAssign := by
  rw [simples, List.countP_filterMap]
  congr 1
  funext instr
  cases instr <;> rfl

theorem countP_isCheck (code : Code) :
    code.countP Instr.isCheck = (simples code).countP SimpleStmt.isCheck := by
  rw [simples, List.countP_filterMap]
  congr 1
  funext instr
  cases instr <;> rfl

end Code

/-- Where two paths meet there are only joins. -/
theorem Scope.Meets.simples_eq_nil {guard : Expr Version} {one : NameMap Nat} {s s' : Scope}
    {code : Code} (h : Meets guard one s code s') : Code.simples code = [] := by
  refine Code.simples_eq_nil ?_
  intro instr hmem
  obtain ⟨x, a, b, -, -, -, rfl⟩ := h.mem_code.mp hmem
  rfl

theorem Scope.simples_entryCode (s after : Scope) (names : List String) :
    Code.simples (s.entryCode after names) = [] := by
  refine Code.simples_eq_nil ?_
  intro instr hmem
  obtain ⟨x, -, rfl⟩ := List.mem_map.mp hmem
  rfl

namespace Block

/-- The code of a block, without joins and numbers, lists the simple statements of the block. -/
theorem Numbers.simples_eq {b : Block} {s s' : Scope} {code : Code} (h : Numbers b s code s')
    (hv : s.Valid) : Code.simples code = simples b := by
  induction h with
  | nil s => rfl
  | @assign span a rest s s₁ s' more hclaim _ ih =>
    have hmore := ih (((claims_of_claim hclaim).valid hv).advance _)
    simp only [Code.simples, List.filterMap_cons, Instr.simple?, map_base_resolve, simples,
      Stmt.simples, List.singleton_append, ← hmore]
  | @check span cond rest s s₁ s' more hclaim _ ih =>
    have hmore := ih ((claims_of_claim hclaim).valid hv)
    simp only [Code.simples, List.filterMap_cons, Instr.simple?, map_base_resolve, simples,
      Stmt.simples, List.singleton_append, ← hmore]
  | ifElse hclaim ht he hjoin _ iht ihe ih =>
    have hbranch := Branch.of_claim hv hclaim ht.step he.step hjoin
    simp only [Code.simples_append, hbranch.meets.simples_eq_nil, List.append_nil,
      iht hbranch.valid, ihe hbranch.elseValid, ih hbranch.step.valid, simples, Stmt.simples]
  | whileDo hclaim hbody hexit _ ihbody ih =>
    have hloop := Loop.of_claim hv hclaim hbody.step hexit
    simp only [Code.simples_append, hloop.meets.simples_eq_nil, simples_entryCode, List.append_nil,
      ihbody (hloop.valid.advanceAll _), ih hloop.step.valid, simples, Stmt.simples]
  | forDo _ ih => rw [ih hv, simples_forDo]

/-- Statements without blocks have one instruction each, and need no joins. -/
theorem Numbers.straightLine {b : Block} {s s' : Scope} {code : Code} (h : Numbers b s code s')
    (hb : b.all Stmt.isSimple = true) :
    code.length = b.length ∧ ∀ instr ∈ code, instr.isJoin = false := by
  induction h with
  | nil s => exact ⟨rfl, by simp⟩
  | assign _ _ ih =>
    obtain ⟨hlength, hjoins⟩ := ih hb
    exact ⟨congrArg (· + 1) hlength, List.forall_mem_cons.mpr ⟨rfl, hjoins⟩⟩
  | check _ _ ih =>
    obtain ⟨hlength, hjoins⟩ := ih hb
    exact ⟨congrArg (· + 1) hlength, List.forall_mem_cons.mpr ⟨rfl, hjoins⟩⟩
  | ifElse | whileDo | forDo => cases hb

end Block

/-- Numbering keeps every assignment and every assertion, once and in the order of the text. So the
code has as many definitions and assertions as the program has assignments and assertions, and a
program without branches and loops has one instruction for every statement, none of them a join. -/
theorem Program.statements_kept (p : Program) :
    ∃ f, p.toSsa = .ok f ∧ Code.simples f.code = Block.simples p.statements ∧
      f.code.countP Instr.isDefine = (Block.counts p.statements).assignments ∧
      f.code.countP Instr.isCheck = (Block.counts p.statements).assertions ∧
      (p.isStraightLine = true → f.code.length = p.statements.length ∧
        ∀ instr ∈ f.code, instr.isJoin = false) := by
  obtain ⟨code, s, h, hssa⟩ := p.exists_toSsa
  have hsimples := h.simples_eq valid_empty
  obtain ⟨hassigns, hchecks⟩ := Block.countP_simples p.statements
  refine ⟨_, hssa, hsimples, ?_, ?_, h.straightLine⟩
  · rw [Code.countP_isDefine, hsimples, hassigns]
  · rw [Code.countP_isCheck, hsimples, hchecks]

end WhileSmt
