import WhileSmt.Cli.Options
import WhileSmt.Text.Styled
import WhileSmt.Verdict

/-!
The lines that a run prints about its progress and its result, with their styles.
-/

namespace WhileSmt.Cli

open Text (Style)

/-- The stages of a run in their order. -/
inductive Stage where
  | parsing
  | numbering
  | optimization
  | flowGraph
  | encoding
  | solving
deriving DecidableEq

/-- The place of a stage in a run. -/
def Stage.number : Stage → Nat
  | parsing => 1
  | numbering => 2
  | optimization => 3
  | flowGraph => 4
  | encoding => 5
  | solving => 6

/-- A stage as it is announced. -/
def Stage.name : Stage → String
  | parsing => "Parsing"
  | numbering => "SSA Conversion"
  | optimization => "Optimization"
  | flowGraph => "Control Flow Graph"
  | encoding => "SMT Encoding"
  | solving => "Solving"

/-- How much is printed, and whether it has styles. -/
structure Console where
  level : Level
  colors : Bool

/-- Whether the surroundings ask for styles: `force` unless it is zero, otherwise never if `never`
is set, otherwise on a terminal unless `allow` is zero. -/
def wantsColors (allow force never : Option String) (terminal : Bool) : Bool :=
  if force.any (· ≠ "0") then true
  else if never.isSome then false
  else terminal && allow.all (· ≠ "0")

namespace Console

/-- A text in a style, unless styles are off. -/
def paint (c : Console) (style : Style) (text : String) : String :=
  if c.colors then style.paint text else text

/-! ## Stages -/

/-- The front of the line of a stage; its outcome completes the line. -/
def stageStart (c : Console) (stage : Stage) (total : Nat) : String :=
  let strong : Style := { emphasis := some .bold, color := some .brightBlue }
  c.paint strong "Stage" ++ " " ++
    c.paint strong (Text.natural stage.number ++ "/" ++ Text.natural total) ++ ": (" ++
    c.paint { color := some .brightBlue } stage.name ++ "): "

/-- The word for a stage that went well. -/
def okWord (c : Console) : String :=
  c.paint { emphasis := some .bold, color := some .green } "OK"

/-- The rest of the line of a stage that went well. -/
def stageSuccess (c : Console) : String :=
  c.okWord ++ "\n"

/-- The rest of the line of a stage that was left out. -/
def stageSkipped (c : Console) (reason : String) : String :=
  c.okWord ++ " (" ++ c.paint { emphasis := some .italic } reason ++ ")\n"

/-- The rest of the line of a stage that failed. -/
def stageError (c : Console) : String :=
  c.paint { emphasis := some .bold, color := some .red } "ERROR" ++ "\n"

/-- The last line of a run that failed. -/
def aborting : String :=
  "Aborting pipeline due to errors.\n"

/-! ## Single lines -/

/-- The line for a file that is written. -/
def writing (c : Console) (path : String) : String :=
  c.paint { emphasis := some .bold, color := some .blue } "Writing" ++ " " ++
    c.paint { emphasis := some .underline, color := some .brightBlue } path ++ "\n"

/-- The line for options that have no effect. -/
def warning (c : Console) (message : String) : String :=
  c.paint { emphasis := some .bold, color := some .yellow } "Warning:" ++ " " ++
    c.paint { color := some .brightYellow } message ++ "\n"

/-- An error; `context` stands before the message without a style. -/
def error (c : Console) (context message : String) : String :=
  c.paint { emphasis := some .bold, color := some .red } "ERROR:" ++ " " ++ context ++
    c.paint { color := some .brightRed } message ++ "\n"

/-- A line that only verbose runs print. -/
def detail (text : String) : String :=
  "  " ++ text ++ "\n"

/-- Such a line with a label, which is a source or a setting. -/
def detailItem (c : Console) (label value : String) : String :=
  "  " ++ c.paint { color := some .brightWhite } label ++ ": " ++ value ++ "\n"

/-! ## Results -/

/-- The heading of a list of results. -/
def title (c : Console) (text : String) : String :=
  "\n" ++ c.paint { emphasis := some .bold, color := some .brightWhite } text ++ "\n"

/-- One result. -/
def plainItem (label value : String) : String :=
  " - " ++ label ++ ": " ++ value ++ "\n"

/-- A result that speaks for the program. -/
def goodItem (c : Console) (label value : String) : String :=
  plainItem label (c.paint { color := some .green } value)

/-- A result that speaks against it. -/
def badItem (c : Console) (label value : String) : String :=
  plainItem label (c.paint { color := some .red } value)

/-- How many values of a model are listed, unless all are asked for. -/
def modelLimit : Nat := 10

/-- The values of a model in the order of their names; nothing if there are none. -/
def bindings (c : Console) (model : Model) : String :=
  let all := model.toList
  let limit := if c.level = .verbose then all.length else modelLimit
  if all.isEmpty then ""
  else
    c.title "Example bindings" ++
      String.join ((all.take limit).map fun (name, n) =>
        "   " ++ c.paint { color := some .brightWhite } name ++ " = " ++ Text.int64 n ++ "\n") ++
      if limit < all.length then
        "   ... " ++ Text.natural (all.length - limit) ++ " more (use --verbose to list all)\n"
      else ""

/-- The result of a quiet run. -/
def quietResult (verdict : Verdict) : String :=
  (match verdict with
    | .verified | .notVerified => "Verification: "
    | .equivalent | .notEquivalent => "Equivalence: ") ++ verdict.text ++ "\n"

/-- The result of a run: the verdict, what it rests on, and a model if there is one. -/
def result (c : Console) (report : Report) : String :=
  if c.level = .quiet then quietResult report.verdict
  else
    c.title "Verification Results" ++
      (if report.verdict.isPositive then c.goodItem "Verdict" report.verdict.text
        else c.badItem "Verdict" report.verdict.text) ++
      plainItem "Logic" report.script.logic.name ++
      plainItem "Assertions" (Text.natural report.script.assertionCount) ++
      (match report.reason with
        | some reason => c.badItem "Reason" reason.text
        | none => "") ++
      (match report.model with
        | some model => c.bindings model
        | none => "")

end Console

end WhileSmt.Cli
