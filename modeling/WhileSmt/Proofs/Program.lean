import WhileSmt.Ssa.Numbering

/-!
Blocks by induction. A counting loop stands for its first assignment and a loop whose body ends
with its second, so a property of blocks need not be proved for it separately.

Main statements: the induction itself (`Block.inductionOn`), and that numbering treats a counting
loop as the statements it stands for (`Block.number_forDo`).
-/

namespace WhileSmt

mutual

/-- The size of a statement; that of a counting loop exceeds that of the statements it stands
for. -/
def Stmt.size : Stmt → Nat
  | .assign .. => 1
  | .check .. => 1
  | .ifElse _ _ t e => Block.size t + Block.size e + 1
  | .whileDo _ _ body => Block.size body + 1
  | .forDo _ _ _ _ body => Block.size body + 4

/-- The number of statements of a block, at all depths. -/
def Block.size : List Stmt → Nat
  | [] => 0
  | stmt :: rest => stmt.size + Block.size rest

end

attribute [ext] Counts

@[simp] theorem Counts.assignments_add (a b : Counts) :
    (a + b).assignments = a.assignments + b.assignments := rfl

@[simp] theorem Counts.branches_add (a b : Counts) :
    (a + b).branches = a.branches + b.branches := rfl

@[simp] theorem Counts.loops_add (a b : Counts) : (a + b).loops = a.loops + b.loops := rfl

@[simp] theorem Counts.assertions_add (a b : Counts) :
    (a + b).assertions = a.assertions + b.assertions := rfl

namespace Block

theorem size_append (b₁ b₂ : Block) : size (b₁ ++ b₂) = size b₁ + size b₂ := by
  induction b₁ with
  | nil => simp [size]
  | cons stmt rest ih =>
    rw [List.cons_append, size, size, ih]
    omega

/-- The statements that a counting loop stands for. -/
def counting (span : Span) (init : Assignment) (cond : Expr String) (update : Assignment)
    (body : Block) : Block :=
  [.assign span init, .whileDo span cond (body ++ [.assign span update])]

/-- Induction on blocks, with a counting loop read as the statements it stands for. -/
@[elab_as_elim]
theorem inductionOn {motive : Block → Prop} (b : Block) (nil : motive [])
    (assign : ∀ span a rest, motive rest → motive (.assign span a :: rest))
    (check : ∀ span cond rest, motive rest → motive (.check span cond :: rest))
    (ifElse : ∀ span cond t e rest, motive t → motive e → motive rest →
      motive (.ifElse span cond t e :: rest))
    (whileDo : ∀ span cond body rest, motive body → motive rest →
      motive (.whileDo span cond body :: rest))
    (forDo : ∀ span init cond update body rest,
      motive (counting span init cond update body ++ rest) →
      motive (.forDo span init cond update body :: rest)) : motive b := by
  match b with
  | [] => exact nil
  | .assign span a :: rest =>
    exact assign span a rest (inductionOn rest nil assign check ifElse whileDo forDo)
  | .check span cond :: rest =>
    exact check span cond rest (inductionOn rest nil assign check ifElse whileDo forDo)
  | .ifElse span cond t e :: rest =>
    exact ifElse span cond t e rest (inductionOn t nil assign check ifElse whileDo forDo)
      (inductionOn e nil assign check ifElse whileDo forDo)
      (inductionOn rest nil assign check ifElse whileDo forDo)
  | .whileDo span cond body :: rest =>
    exact whileDo span cond body rest (inductionOn body nil assign check ifElse whileDo forDo)
      (inductionOn rest nil assign check ifElse whileDo forDo)
  | .forDo span init cond update body :: rest =>
    exact forDo span init cond update body rest
      (inductionOn (counting span init cond update body ++ rest) nil assign check ifElse whileDo
        forDo)
termination_by size b
decreasing_by
  all_goals simp only [counting, size_append, size, Stmt.size]
  all_goals omega

/-! ## Names -/

theorem assigned_append (b₁ b₂ : Block) : assigned (b₁ ++ b₂) = assigned b₁ ++ assigned b₂ := by
  induction b₁ with
  | nil => rfl
  | cons stmt rest ih => simp [assigned, ih]

theorem reads_append (b₁ b₂ : Block) : reads (b₁ ++ b₂) = reads b₁ ++ reads b₂ := by
  induction b₁ with
  | nil => rfl
  | cons stmt rest ih => simp [reads, ih]

theorem mem_assigned_forDo {x : String} {span : Span} {init update : Assignment}
    {cond : Expr String} {body rest : Block} :
    x ∈ assigned (.forDo span init cond update body :: rest) ↔
      x ∈ assigned (counting span init cond update body ++ rest) := by
  simp only [counting, assigned, Stmt.assigned, assigned_append, List.mem_append, List.mem_cons,
    List.not_mem_nil, or_false]
  grind

theorem mem_reads_forDo {x : String} {span : Span} {init update : Assignment}
    {cond : Expr String} {body rest : Block} :
    x ∈ reads (.forDo span init cond update body :: rest) ↔
      x ∈ reads (counting span init cond update body ++ rest) := by
  simp only [counting, reads, Stmt.reads, reads_append, List.mem_append, List.not_mem_nil,
    or_false]
  grind

/-! ## Kinds of statements -/

theorem counts_append (b₁ b₂ : Block) : counts (b₁ ++ b₂) = counts b₁ + counts b₂ := by
  induction b₁ with
  | nil => simp [counts, Counts.ext_iff]
  | cons stmt rest ih => simp [counts, ih, Counts.ext_iff, Nat.add_assoc]

/-- A counting loop counts as the statements it stands for. -/
theorem counts_forDo (span : Span) (init : Assignment) (cond : Expr String) (update : Assignment)
    (body rest : Block) :
    counts (.forDo span init cond update body :: rest) =
      counts (counting span init cond update body ++ rest) := by
  simp only [counting, counts, Stmt.counts, counts_append, Counts.ext_iff, Counts.assignments_add,
    Counts.branches_add, Counts.loops_add, Counts.assertions_add]
  omega

/-! ## Numbering -/

theorem number_nil (s : Scope) : number [] s = pure ([], s) := rfl

theorem number_cons (stmt : Stmt) (rest : Block) (s : Scope) :
    number (stmt :: rest) s = (do
      let (code, s) ← stmt.number s
      let (more, s) ← number rest s
      return (code ++ more, s)) := rfl

theorem number_append (b₁ b₂ : Block) (s : Scope) :
    number (b₁ ++ b₂) s = (do
      let (c₁, s) ← number b₁ s
      let (c₂, s) ← number b₂ s
      return (c₁ ++ c₂, s)) := by
  induction b₁ generalizing s with
  | nil =>
    simp only [List.nil_append, number_nil, pure_bind]
    exact (bind_pure (number b₂ s)).symm
  | cons stmt rest ih =>
    simp only [List.cons_append, number_cons, ih, bind_assoc, pure_bind, List.append_assoc]

/-- A counting loop is numbered as its first assignment and then the loop. -/
theorem stmt_number_forDo (span : Span) (init : Assignment) (cond : Expr String)
    (update : Assignment) (body : Block) (s : Scope) :
    (Stmt.forDo span init cond update body).number s = (do
      let (c₁, s) ← init.number s
      let (c₂, s) ← (Stmt.whileDo span cond (body ++ [.assign span update])).number s
      return (c₁ ++ c₂, s)) := by
  have hbody : (fun s => number (body ++ [.assign span update]) s) = fun s => do
      let (bodyCode, s) ← number body s
      let (updateCode, s) ← update.number s
      return (bodyCode ++ updateCode, s) := by
    funext s
    simp only [number_append, number_cons, number_nil, Stmt.number, bind_assoc, pure_bind,
      List.append_nil]
  simp only [Stmt.number, hbody, bind_assoc]

/-- A counting loop is numbered as the statements it stands for. -/
theorem number_forDo (span : Span) (init : Assignment) (cond : Expr String) (update : Assignment)
    (body rest : Block) (s : Scope) :
    number (.forDo span init cond update body :: rest) s =
      number (counting span init cond update body ++ rest) s := by
  rw [counting, List.cons_append, List.cons_append, List.nil_append]
  simp only [number_cons, stmt_number_forDo, bind_assoc, pure_bind, List.append_assoc]
  rfl

end Block

end WhileSmt
