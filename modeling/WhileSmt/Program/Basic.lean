import WhileSmt.Expr.Basic
import WhileSmt.Names

/-!
Programs: assignments, assertions, branches and two kinds of loops, each with the place where it
starts. `Stmt.assigned` and `Stmt.reads` list the names that a statement writes and reads at any
depth, and `Stmt.counts` counts its kinds.
-/

namespace WhileSmt

/-- A place in a source text: line and column from one, the column in bytes. -/
structure Span where
  line : Nat := 1
  column : Nat := 1
deriving DecidableEq, Inhabited

/-- An assignment of a value to a name. -/
structure Assignment where
  target : String
  value : Expr String
deriving DecidableEq, Inhabited

/-- Statements, each with its place in the source. An assertion is a check of its condition, and a
branch without `else` has an empty second block. -/
inductive Stmt where
  | assign (span : Span) (assignment : Assignment)
  | check (span : Span) (cond : Expr String)
  | ifElse (span : Span) (cond : Expr String) (thenBlock elseBlock : List Stmt)
  | whileDo (span : Span) (cond : Expr String) (body : List Stmt)
  | forDo (span : Span) (init : Assignment) (cond : Expr String) (update : Assignment)
      (body : List Stmt)
deriving Inhabited

/-- The statements between two braces. -/
abbrev Block := List Stmt

/-- A program is its statements. -/
structure Program where
  statements : Block
deriving Inhabited

/-! ## Names -/

mutual

/-- The names that a statement assigns, those of nested blocks included. -/
def Stmt.assigned : Stmt → List String
  | .assign _ a => [a.target]
  | .check _ _ => []
  | .ifElse _ _ t e => Block.assigned t ++ Block.assigned e
  | .whileDo _ _ body => Block.assigned body
  | .forDo _ init _ update body => init.target :: update.target :: Block.assigned body

/-- The names that a block assigns. -/
def Block.assigned : List Stmt → List String
  | [] => []
  | s :: rest => s.assigned ++ Block.assigned rest

end

mutual

/-- The names that a statement reads, those of nested blocks and of arrays included. -/
def Stmt.reads : Stmt → List String
  | .assign _ a => a.value.names
  | .check _ cond => cond.names
  | .ifElse _ cond t e => cond.names ++ Block.reads t ++ Block.reads e
  | .whileDo _ cond body => cond.names ++ Block.reads body
  | .forDo _ init cond update body =>
    init.value.names ++ cond.names ++ update.value.names ++ Block.reads body

/-- The names that a block reads. -/
def Block.reads : List Stmt → List String
  | [] => []
  | s :: rest => s.reads ++ Block.reads rest

end

/-- The names assigned in a block, each once, in increasing order. -/
def Block.assignedNames (block : Block) : List String :=
  sortNames (Block.assigned block)

/-- The names read in a statement, each once, in increasing order. -/
def Stmt.readNames (s : Stmt) : List String :=
  sortNames s.reads

/-! ## Kinds of statements -/

/-- A statement without a block inside it. -/
def Stmt.isSimple : Stmt → Bool
  | .assign .. => true
  | .check .. => true
  | _ => false

/-- A program without branches and loops. -/
def Program.isStraightLine (p : Program) : Bool :=
  p.statements.all Stmt.isSimple

/-- How many statements of each kind there are. -/
structure Counts where
  assignments : Nat := 0
  branches : Nat := 0
  loops : Nat := 0
  assertions : Nat := 0
deriving DecidableEq, Inhabited

/-- The counts of two pieces together. -/
def Counts.add (a b : Counts) : Counts where
  assignments := a.assignments + b.assignments
  branches := a.branches + b.branches
  loops := a.loops + b.loops
  assertions := a.assertions + b.assertions

instance : Add Counts := ⟨Counts.add⟩

mutual

/-- Counts a statement and all inside it. The two assignments in the head of a counting loop
count as assignments. -/
def Stmt.counts : Stmt → Counts
  | .assign .. => { assignments := 1 }
  | .check .. => { assertions := 1 }
  | .ifElse _ _ t e => { branches := 1 : Counts } + Block.counts t + Block.counts e
  | .whileDo _ _ body => { loops := 1 : Counts } + Block.counts body
  | .forDo _ _ _ _ body => { loops := 1, assignments := 2 : Counts } + Block.counts body

/-- How many statements of each kind a block has, at all depths. -/
def Block.counts : List Stmt → Counts
  | [] => {}
  | s :: rest => s.counts + Block.counts rest

end

end WhileSmt
