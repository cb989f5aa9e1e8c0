import WhileSmt.Diagnostic
import WhileSmt.Ssa.Basic

/-!
Numbering a program into single-assignment form. Every assignment defines the next version of its
name; a name read before any assignment is an input, and its version is zero. After a branch, every
name whose version differs between the arms gets a join guarded by the condition. A loop is
numbered once: every name it carries enters the body in a fresh version, which a join without a
guard defines after the body, and leaves the loop by a join guarded by the negated condition.
-/

namespace WhileSmt

/-- A broken promise of the numbering itself. -/
inductive NumberingError where
  | inputDefined (base : String)
  | noVersion (base : String)
  | redefined (version : Version)
deriving DecidableEq

/-- What is said about names that cannot be numbered. -/
def NumberingError.message : NumberingError → String
  | inputDefined base =>
    "read of `" ++ base ++ "` resolves to " ++ base ++ "_0, which is already defined"
  | noVersion base => "no version recorded for `" ++ base ++ "`"
  | redefined version => version.text ++ " is defined more than once"

/-- The report on such names, which has no place in the source. -/
def NumberingError.diagnostic (e : NumberingError) : Diagnostic where
  cause := .broken e.message

/-- The version in force for every known name, and the next free number of every used name. The
first depends on the path, the second is shared by all paths. -/
structure Scope where
  env : NameMap Nat := ∅
  next : NameMap Nat := ∅

namespace Scope

/-- Makes every unknown name of a list an input. -/
def claim (s : Scope) : List String → Except NumberingError Scope
  | [] => .ok s
  | base :: rest =>
    if s.env.contains base then s.claim rest
    else if s.next.contains base then .error (.inputDefined base)
    else claim { env := s.env.insert base 0, next := s.next.insert base 1 } rest

/-- The next free number of a name. -/
def nextNumber (s : Scope) (base : String) : Nat :=
  (s.next.get? base).getD 0

/-- Gives a name its next version. -/
def advance (s : Scope) (base : String) : Scope where
  env := s.env.insert base (s.nextNumber base)
  next := s.next.insert base (s.nextNumber base + 1)

/-- New versions for the names of a list, in its order. -/
def advanceAll (s : Scope) (bases : List String) : Scope :=
  bases.foldl advance s

/-- The version of a name in the current scope; a name that is not known is an input. -/
def current (s : Scope) (base : String) : Version where
  base := base
  number := (s.env.get? base).getD 0

/-- Replaces every name of an expression by its current version. -/
def resolve (s : Scope) (e : Expr String) : Expr Version :=
  e.map s.current

end Scope

/-- The version of a name that is in force; there must be one. -/
def versionOf (env : NameMap Nat) (base : String) : Except NumberingError Nat :=
  match env.get? base with
  | some number => .ok number
  | none => .error (.noVersion base)

/-- Numbers an assignment: the value first, in the versions before it. -/
def Assignment.number (a : Assignment) (s : Scope) : Except NumberingError (Code × Scope) := do
  let s ← s.claim a.value.names
  return ([.define { base := a.target, number := s.nextNumber a.target } (s.resolve a.value)],
    s.advance a.target)

/-- Joins the arms of a branch. The list holds the versions after the second arm; the scope starts
with the versions after the first. -/
def joinArms (guard : Expr Version) (firstEnv : NameMap Nat) :
    List (String × Nat) → Scope → Code × Scope
  | [], s => ([], s)
  | (base, second) :: rest, s =>
    match firstEnv.get? base with
    | none => joinArms guard firstEnv rest { s with env := s.env.insert base second }
    | some first =>
      if first = second then joinArms guard firstEnv rest s
      else
        let (code, s') := joinArms guard firstEnv rest (s.advance base)
        (.join { base := base, number := s.nextNumber base }
            [{ base := base, number := first }, { base := base, number := second }]
            (some guard) :: code, s')

/-- The joins at the entry of a loop, for the names that the body changes. -/
def entryJoins (before entry after : NameMap Nat) : List String → Except NumberingError Code
  | [] => .ok []
  | base :: rest => do
    let entered ← versionOf entry base
    let left ← versionOf after base
    let code ← if left = entered then pure [] else do
      let first ← versionOf before base
      pure [Instr.join { base := base, number := entered }
        [{ base := base, number := first }, { base := base, number := left }] none]
    let more ← entryJoins before entry after rest
    return code ++ more

/-- The joins at the exit of a loop, for the names whose version the body changes. The list holds
the versions before the loop. -/
def exitJoins (guard : Expr Version) (after : NameMap Nat) :
    List (String × Nat) → Scope → Except NumberingError (Code × Scope)
  | [], s => .ok ([], s)
  | (base, first) :: rest, s => do
    let left ← versionOf after base
    if left = first then exitJoins guard after rest s
    else
      let (code, s') ← exitJoins guard after rest (s.advance base)
      return (.join { base := base, number := s.nextNumber base }
          [{ base := base, number := first }, { base := base, number := left }]
          (some guard) :: code, s')

/-- Numbers a loop whose body assigns the names `assigned`. -/
def numberLoop (cond : Expr String) (assigned : List String)
    (body : Scope → Except NumberingError (Code × Scope)) (s : Scope) :
    Except NumberingError (Code × Scope) := do
  let s ← s.claim cond.names
  let guard := s.resolve cond
  let carried := assigned.filter s.env.contains
  let entry := s.advanceAll carried
  let (code, after) ← body entry
  let entries ← entryJoins s.env entry.env after.env carried
  let (exits, final) ← exitJoins (.unary .not guard) after.env s.env.toList after
  return (code ++ entries ++ exits, final)

mutual

/-- Numbers a statement. Before a branch or a loop, every name that it reads anywhere and that is
not known becomes an input, so that all paths agree on it. A counting loop is numbered as its
first assignment and a loop whose body ends with its second. -/
def Stmt.number : Stmt → Scope → Except NumberingError (Code × Scope)
  | .assign _ a, s => a.number s
  | .check _ cond, s => do
    let s ← s.claim cond.names
    return ([.check (s.resolve cond)], s)
  | .ifElse span cond t e, s => do
    let s ← s.claim (Stmt.ifElse span cond t e).readNames
    let s ← s.claim cond.names
    let guard := s.resolve cond
    let (thenCode, first) ← Block.number t s
    let (elseCode, second) ← Block.number e { env := s.env, next := first.next }
    let (joins, joined) := joinArms guard first.env second.env.toList
      { env := first.env, next := second.next }
    return (thenCode ++ elseCode ++ joins, joined)
  | .whileDo span cond body, s => do
    let s ← s.claim (Stmt.whileDo span cond body).readNames
    numberLoop cond (Block.assignedNames body) (fun s => Block.number body s) s
  | .forDo span init cond update body, s => do
    let (initCode, s) ← init.number s
    let s ← s.claim (Stmt.whileDo span cond (body ++ [.assign span update])).readNames
    let (loopCode, s) ← numberLoop cond (Block.assignedNames (body ++ [.assign span update]))
      (fun s => do
        let (bodyCode, s) ← Block.number body s
        let (updateCode, s) ← update.number s
        return (bodyCode ++ updateCode, s)) s
    return (initCode ++ loopCode, s)

/-- Numbers the statements of a block, each in the scope that the one before it leaves. -/
def Block.number : List Stmt → Scope → Except NumberingError (Code × Scope)
  | [], s => .ok ([], s)
  | stmt :: rest, s => do
    let (code, s) ← stmt.number s
    let (more, s) ← Block.number rest s
    return (code ++ more, s)

end

/-- Refuses a list of instructions that defines a version twice. -/
def Code.checkSingle (code : Code) : Except NumberingError Unit :=
  match Code.redefined? code with
  | some version => .error (.redefined version)
  | none => .ok ()

/-- The single-assignment form of a program. -/
def Program.toSsa (p : Program) : Except NumberingError SsaForm := do
  let (code, s) ← Block.number p.statements {}
  Code.checkSingle code
  return { code := code, finals := s.env.mapValues fun base number => { base, number } }

end WhileSmt
