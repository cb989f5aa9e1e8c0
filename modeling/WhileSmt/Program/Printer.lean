import WhileSmt.Program.Basic

/-!
Two listings of a program: an outline with one line per statement, indented by nesting, and a
summary of how many statements of each kind it has.
-/

namespace WhileSmt

/-- The label text of a source expression. -/
def sourceLabel (e : Expr String) : String :=
  e.label id

/-- A line of the outline, two blanks per level. -/
def outlineLine (depth : Nat) (text : String) : String :=
  String.ofList (List.replicate (2 * depth) ' ') ++ text ++ "\n"

/-- An assignment in a line of the outline. -/
def Assignment.label (a : Assignment) : String :=
  a.target ++ " := " ++ sourceLabel a.value

/-- The place of a statement as the outline shows it, where places are asked for. -/
def Span.mark (span : Span) (places : Bool) : String :=
  if places then " @" ++ Text.natural span.line ++ ":" ++ Text.natural span.column else ""

mutual

/-- The lines of a statement; the part after `else` is listed only if it is not empty. -/
def Stmt.outline (places : Bool) (depth : Nat) : Stmt → String
  | .assign span a => outlineLine depth ("Assign " ++ a.label ++ span.mark places)
  | .check span cond =>
    outlineLine depth ("Assert (" ++ sourceLabel cond ++ ")" ++ span.mark places)
  | .ifElse span cond t e =>
    outlineLine depth ("If (" ++ sourceLabel cond ++ ")" ++ span.mark places) ++
      outlineLine (depth + 1) "Then:" ++ Block.outline places (depth + 2) t ++
      (if e.isEmpty then ""
        else outlineLine (depth + 1) "Else:" ++ Block.outline places (depth + 2) e)
  | .whileDo span cond body =>
    outlineLine depth ("While (" ++ sourceLabel cond ++ ")" ++ span.mark places) ++
      Block.outline places (depth + 1) body
  | .forDo span init cond update body =>
    outlineLine depth
        ("For (" ++ init.label ++ "; " ++ sourceLabel cond ++ "; " ++ update.label ++ ")" ++
          span.mark places) ++
      Block.outline places (depth + 1) body

/-- The outlines of statements, one after the other. -/
def Block.outline (places : Bool) (depth : Nat) : List Stmt → String
  | [] => ""
  | s :: rest => s.outline places depth ++ Block.outline places depth rest

end

/-- The outline of a program, with the place of every statement if `places` is set. -/
def Program.outline (places : Bool) (p : Program) : String :=
  "Program (" ++ Text.natural p.statements.length ++ " statements)\n" ++
    Block.outline places 1 p.statements

/-- The number of statements of each kind. -/
def Program.summary (p : Program) : String :=
  let counts := Block.counts p.statements
  "AST Summary:\n" ++
    " - Top-level statements: " ++ Text.natural p.statements.length ++ "\n" ++
    " - Assignments: " ++ Text.natural counts.assignments ++ "\n" ++
    " - Branches: " ++ Text.natural counts.branches ++ "\n" ++
    " - Loops: " ++ Text.natural counts.loops ++ "\n" ++
    " - Assertions: " ++ Text.natural counts.assertions ++ "\n" ++
    " - Straight-line: " ++ (if p.isStraightLine then "yes" else "no") ++ "\n"

end WhileSmt
