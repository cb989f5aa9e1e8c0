import Mathlib.Data.List.Sort
import WhileSmt.FlowGraph.Basic
import WhileSmt.Proofs.Program

/-!
Counting loops are a way of writing. A program in which every counting loop is replaced by the
statements it stands for, at every depth, is numbered to the same code and drawn as the same flow
graph, and it has the same names and as many statements of every kind.

Main statements: a counting loop is drawn as the statements it stands for (`Block.flow_forDo`), and
nothing that is computed from a program tells it from its expansion (`Program.expand_unchanged`).
-/

namespace WhileSmt

/-! ## Expansion -/

mutual

/-- The statements that a statement stands for, without counting loops. -/
@[simp] def Stmt.expand : Stmt → List Stmt
  | .assign span a => [.assign span a]
  | .check span cond => [.check span cond]
  | .ifElse span cond t e => [.ifElse span cond (Block.expand t) (Block.expand e)]
  | .whileDo span cond body => [.whileDo span cond (Block.expand body)]
  | .forDo span init cond update body => Block.counting span init cond update (Block.expand body)

/-- The statements that a block stands for. -/
@[simp] def Block.expand : List Stmt → List Stmt
  | [] => []
  | stmt :: rest => stmt.expand ++ Block.expand rest

end

/-- The program in which the statements that it stands for take the place of every counting loop. -/
def Program.expand (p : Program) : Program where
  statements := Block.expand p.statements

mutual

/-- There is no counting loop at any depth. -/
@[simp] def Stmt.isPlain : Stmt → Bool
  | .assign .. => true
  | .check .. => true
  | .ifElse _ _ t e => Block.isPlain t && Block.isPlain e
  | .whileDo _ _ body => Block.isPlain body
  | .forDo .. => false

/-- There is no counting loop in a block. -/
@[simp] def Block.isPlain : List Stmt → Bool
  | [] => true
  | stmt :: rest => stmt.isPlain && Block.isPlain rest

end

theorem sortNames_congr {names names' : List String} (h : ∀ x, x ∈ names ↔ x ∈ names') :
    sortNames names = sortNames names' := by
  refine (pairwise_sortNames _).eq_of_mem_iff (pairwise_sortNames _) ?_
  intro x
  rw [mem_sortNames, mem_sortNames, h x]

namespace Block

theorem expand_append (b₁ b₂ : Block) : expand (b₁ ++ b₂) = expand b₁ ++ expand b₂ := by
  induction b₁ with
  | nil => rfl
  | cons stmt rest ih => simp [expand, ih]

theorem expand_forDo (span : Span) (init : Assignment) (cond : Expr String) (update : Assignment)
    (body rest : Block) :
    expand (.forDo span init cond update body :: rest) =
      expand (counting span init cond update body ++ rest) := by
  simp [counting, expand, Stmt.expand, expand_append]

theorem expand_eq_nil_iff {b : Block} : expand b = [] ↔ b = [] := by
  cases b with
  | nil => exact Iff.rfl
  | cons stmt rest => cases stmt <;> simp [expand, Stmt.expand, counting]

theorem isPlain_expand (b : Block) : isPlain (expand b) = true := by
  induction b using inductionOn with
  | nil => rfl
  | assign span a rest ih | check span cond rest ih =>
    simp [expand, Stmt.expand, isPlain, Stmt.isPlain, ih]
  | ifElse span cond t e rest iht ihe ih =>
    simp [expand, Stmt.expand, isPlain, Stmt.isPlain, iht, ihe, ih]
  | whileDo span cond body rest ihbody ih =>
    simp [expand, Stmt.expand, isPlain, Stmt.isPlain, ihbody, ih]
  | forDo span init cond update body rest ih =>
    rw [expand_forDo]
    exact ih

/-! ## Names and counts -/

theorem mem_assigned_expand {x : String} {b : Block} :
    x ∈ assigned (expand b) ↔ x ∈ assigned b := by
  induction b using inductionOn with
  | nil => exact Iff.rfl
  | assign span a rest ih | check span cond rest ih =>
    simp [expand, Stmt.expand, assigned, Stmt.assigned, ih]
  | ifElse span cond t e rest iht ihe ih =>
    simp [expand, Stmt.expand, assigned, Stmt.assigned, iht, ihe, ih]
  | whileDo span cond body rest ihbody ih =>
    simp [expand, Stmt.expand, assigned, Stmt.assigned, ihbody, ih]
  | forDo span init cond update body rest ih => rw [expand_forDo, ih, mem_assigned_forDo]

theorem mem_reads_expand {x : String} {b : Block} : x ∈ reads (expand b) ↔ x ∈ reads b := by
  induction b using inductionOn with
  | nil => exact Iff.rfl
  | assign span a rest ih | check span cond rest ih =>
    simp [expand, Stmt.expand, reads, Stmt.reads, ih]
  | ifElse span cond t e rest iht ihe ih =>
    simp [expand, Stmt.expand, reads, Stmt.reads, iht, ihe, ih]
  | whileDo span cond body rest ihbody ih =>
    simp [expand, Stmt.expand, reads, Stmt.reads, ihbody, ih]
  | forDo span init cond update body rest ih => rw [expand_forDo, ih, mem_reads_forDo]

theorem mem_flatMap_readNames {x : String} {b : Block} :
    x ∈ b.flatMap Stmt.readNames ↔ x ∈ reads b := by
  induction b with
  | nil => exact Iff.rfl
  | cons stmt rest ih =>
    rw [List.flatMap_cons, List.mem_append, ih, Stmt.readNames, mem_sortNames, reads,
      List.mem_append]

theorem assignedNames_expand (b : Block) : assignedNames (expand b) = assignedNames b :=
  sortNames_congr fun _ => mem_assigned_expand

theorem counts_expand (b : Block) : counts (expand b) = counts b := by
  induction b using inductionOn with
  | nil => rfl
  | assign span a rest ih | check span cond rest ih =>
    simp only [expand, Stmt.expand, List.singleton_append, counts, Stmt.counts, ih]
  | ifElse span cond t e rest iht ihe ih =>
    simp only [expand, Stmt.expand, List.singleton_append, counts, Stmt.counts, iht, ihe, ih]
  | whileDo span cond body rest ihbody ih =>
    simp only [expand, Stmt.expand, List.singleton_append, counts, Stmt.counts, ihbody, ih]
  | forDo span init cond update body rest ih => rw [expand_forDo, ih, counts_forDo]

/-! ## Numbering -/

/-- A branch asks for the same inputs, in the same order, whether its arms are expanded or not. -/
theorem readNames_ifElse_expand (span : Span) (cond : Expr String) (t e : Block) :
    (Stmt.ifElse span cond (expand t) (expand e)).readNames =
      (Stmt.ifElse span cond t e).readNames := by
  refine sortNames_congr ?_
  intro x
  simp only [Stmt.reads, List.mem_append, mem_reads_expand]

theorem readNames_whileDo_expand (span : Span) (cond : Expr String) (body : Block) :
    (Stmt.whileDo span cond (expand body)).readNames =
      (Stmt.whileDo span cond body).readNames := by
  refine sortNames_congr ?_
  intro x
  simp only [Stmt.reads, List.mem_append, mem_reads_expand]

/-- The expansion of a block is numbered like the block, from every scope. -/
theorem number_expand (b : Block) (s : Scope) : number (expand b) s = number b s := by
  induction b using inductionOn generalizing s with
  | nil => rfl
  | assign span a rest ih | check span cond rest ih =>
    simp only [expand, Stmt.expand, List.singleton_append, number_cons, ih]
  | ifElse span cond t e rest iht ihe ih =>
    simp only [expand, Stmt.expand, List.singleton_append, number_cons, Stmt.number,
      readNames_ifElse_expand, iht, ihe, ih]
  | whileDo span cond body rest ihbody ih =>
    simp only [expand, Stmt.expand, List.singleton_append, number_cons, Stmt.number,
      readNames_whileDo_expand, assignedNames_expand, ihbody, ih]
  | forDo span init cond update body rest ih => rw [expand_forDo, ih, number_forDo]

end Block

/-! ## Flow graphs -/

theorem FlowPart.append_assoc (p q r : FlowPart) :
    (p.append q).append r = p.append (q.append r) := by
  simp only [append, List.append_assoc]

namespace Block

theorem flow_cons (parent first : Nat) (stmt : Stmt) {rest : Block} (hrest : rest ≠ []) :
    flow parent first (stmt :: rest) = (stmt.flow parent first).append
      (flow parent (first + (stmt.flow parent first).labels.length) rest) := by
  cases rest with
  | nil => exact absurd rfl hrest
  | cons next more => rfl

/-- The part of two blocks in sequence; an empty second block would hide the last statement of the
first. -/
theorem flow_append (parent first : Nat) (b₁ : Block) {b₂ : Block} (hb₂ : b₂ ≠ []) :
    flow parent first (b₁ ++ b₂) = (flow parent first b₁).append
      (flow parent (first + (flow parent first b₁).labels.length) b₂) := by
  induction b₁ generalizing first with
  | nil => rfl
  | cons stmt rest ih =>
    rw [List.cons_append, flow_cons parent first stmt (by simp [hb₂]), ih]
    cases rest with
    | nil => rfl
    | cons next more =>
      rw [flow_cons parent first stmt (List.cons_ne_nil next more), FlowPart.append_assoc]
      simp only [FlowPart.append, List.length_append, Nat.add_assoc]

/-- A counting loop is drawn as the statements it stands for. -/
theorem stmt_flow_forDo (parent first : Nat) (span : Span) (init : Assignment) (cond : Expr String)
    (update : Assignment) (body : Block) :
    (Stmt.forDo span init cond update body).flow parent first =
      flow parent first (counting span init cond update body) := by
  have hbody : ∀ parent first : Nat, flow parent first (body ++ [.assign span update]) =
      (flow parent first body).append (.single parent
        (first + (flow parent first body).labels.length) update.label) := fun parent first =>
    flow_append parent first body (List.cons_ne_nil _ _)
  show _ = (FlowPart.single parent first init.label).append
    (.loop parent (first + 1) cond (flow (first + 2) (first + 3) (body ++ [.assign span update])))
  rw [hbody, Stmt.flow]

theorem flow_forDo (parent first : Nat) (span : Span) (init : Assignment) (cond : Expr String)
    (update : Assignment) (body rest : Block) :
    flow parent first (.forDo span init cond update body :: rest) =
      flow parent first (counting span init cond update body ++ rest) := by
  cases rest with
  | nil =>
    rw [List.append_nil]
    exact stmt_flow_forDo parent first span init cond update body
  | cons next more =>
    have hmore := List.cons_ne_nil next more
    rw [flow_cons _ _ _ hmore, flow_append _ _ _ hmore, stmt_flow_forDo]

/-- Statements in the same place, followed by blocks of which both or none are empty. -/
theorem flow_cons_congr {parent first : Nat} {stmt stmt' : Stmt} {rest rest' : Block}
    (hstmt : stmt'.flow parent first = stmt.flow parent first)
    (hrest : ∀ first, flow parent first rest' = flow parent first rest)
    (hnil : rest' = [] ↔ rest = []) :
    flow parent first (stmt' :: rest') = flow parent first (stmt :: rest) := by
  by_cases h : rest = []
  · rw [h, hnil.mpr h]
    exact hstmt
  · rw [flow_cons _ _ _ h, flow_cons _ _ _ (mt hnil.mp h), hstmt, hrest]

/-- The expansion of a block is drawn like the block, in every place. -/
theorem flow_expand (parent first : Nat) (b : Block) :
    flow parent first (expand b) = flow parent first b := by
  induction b using inductionOn generalizing parent first with
  | nil => rfl
  | assign span a rest ih | check span cond rest ih =>
    exact flow_cons_congr rfl (ih parent) expand_eq_nil_iff
  | ifElse span cond t e rest iht ihe ih =>
    refine flow_cons_congr ?_ (ih parent) expand_eq_nil_iff
    simp only [Stmt.flow, iht, ihe]
  | whileDo span cond body rest ihbody ih =>
    refine flow_cons_congr ?_ (ih parent) expand_eq_nil_iff
    simp only [Stmt.flow, ihbody]
  | forDo span init cond update body rest ih => rw [expand_forDo, ih, flow_forDo]

end Block

/-- Counting loops are a way of writing. The expansion of a program has none of them, and it has the
same single-assignment form, the same flow graph, the same names and the same counts. -/
theorem Program.expand_unchanged (p : Program) :
    Block.isPlain p.expand.statements = true ∧ p.expand.toSsa = p.toSsa ∧
      p.expand.flowGraph = p.flowGraph ∧
      Block.assignedNames p.expand.statements = Block.assignedNames p.statements ∧
      sortNames (p.expand.statements.flatMap Stmt.readNames) =
        sortNames (p.statements.flatMap Stmt.readNames) ∧
      Block.counts p.expand.statements = Block.counts p.statements := by
  refine ⟨Block.isPlain_expand _, ?_, ?_, Block.assignedNames_expand _, ?_, Block.counts_expand _⟩
  · simp only [toSsa, expand, Block.number_expand]
  · simp only [flowGraph, expand, Block.flow_expand]
  · refine sortNames_congr ?_
    intro x
    rw [Block.mem_flatMap_readNames, Block.mem_flatMap_readNames]
    exact Block.mem_reads_expand

end WhileSmt
