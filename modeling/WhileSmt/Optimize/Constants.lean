import WhileSmt.Optimize.Fold

/-!
Constant propagation. The table of constants starts with every version defined as a literal
anywhere in the list, and grows in the order of the list by the definitions that fold to literals.
-/

namespace WhileSmt

/-- Versions with their constant values; the first entry for a version counts. -/
abbrev Constants := List (Version × Int64)

/-- The known value of a version. -/
def Constants.get? (table : Constants) (v : Version) : Option Int64 :=
  table.lookup v

/-- The version and the value of a definition as a literal. -/
def Instr.constant? : Instr → Option (Version × Int64)
  | .define target value => value.literal?.map fun n => (target, n)
  | _ => none

namespace Code

/-- The literal definitions of a list. Of two for one version the later counts. -/
def constants (code : Code) : Constants :=
  (code.filterMap Instr.constant?).reverse

end Code

/-- Folds the expressions of an instruction. The operands of a join stay versions. -/
def Instr.fold (table : Constants) : Instr → Instr
  | .define target value => .define target (value.fold table.get?)
  | .join result operands guard => .join result operands (guard.map (Expr.fold table.get?))
  | .check cond => .check (cond.fold table.get?)

/-- Folds the instructions in order, with a table that grows, and tells whether one of them has
changed. -/
def Code.walk (table : Constants) : Code → Code × Bool
  | [] => ([], false)
  | instr :: rest =>
    let folded := instr.fold table
    let next := Code.walk (folded.constant?.toList ++ table) rest
    (folded :: next.1, folded ≠ instr || next.2)

/-- One walk of constant propagation, and whether it has changed anything. -/
def Code.propagation (code : Code) : Code × Bool :=
  Code.walk (Code.constants code) code

/-- What a walk leaves of a list. -/
def Code.foldWith (table : Constants) (code : Code) : Code :=
  (Code.walk table code).1

/-- What one walk of constant propagation leaves. -/
def Code.propagate (code : Code) : Code :=
  Code.foldWith (Code.constants code) code

@[simp] theorem Code.foldWith_nil (table : Constants) : foldWith table [] = [] := rfl

@[simp] theorem Code.foldWith_cons (table : Constants) (instr : Instr) (rest : Code) :
    foldWith table (instr :: rest) =
      instr.fold table :: foldWith ((instr.fold table).constant?.toList ++ table) rest := rfl

/-- A walk tells of a change if and only if it leaves another list. -/
theorem Code.walk_changed_iff (table : Constants) (code : Code) :
    (walk table code).2 = true ↔ foldWith table code ≠ code := by
  induction code generalizing table with
  | nil => simp [walk]
  | cons instr rest ih =>
    have hrest := ih ((instr.fold table).constant?.toList ++ table)
    rw [walk, foldWith_cons]
    simp only [Bool.or_eq_true, decide_eq_true_eq, hrest, ne_eq, List.cons.injEq,
      Decidable.not_and_iff_or_not]

end WhileSmt
