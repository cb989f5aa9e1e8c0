import WhileSmt.Cli.Host
import WhileSmt.Verdict

/-!
A verifier answers questions with a solver. If it has a directory for scripts, it saves the script
of a question there before anything else, and a script that cannot be saved ends the check: there is
no verdict then, and the solver is not asked. Programs with different numbers of outputs are not
equivalent, and the solver is not asked about them either.
-/

namespace WhileSmt.Cli

/-! ## Saved scripts -/

/-- The word for a question in the name of its file. -/
def Question.tag : Question → String
  | .assertions _ => "verify"
  | .equivalence _ _ => "equiv"

/-- The first line of a saved script. -/
def Question.title : Question → String
  | .assertions _ => "assertion check"
  | .equivalence _ _ => "equivalence check"

/-- A script with a comment in front that says what it is. -/
def savedScript (q : Question) (stamp : Stamp) : String :=
  "; " ++ Question.title q ++ "\n; Logic: " ++ q.script.logic.name ++ "\n; Declarations: " ++
    Text.natural q.script.declarations.length ++ ", assertions: " ++
    Text.natural q.script.assertionCount ++ "\n; Generated at: " ++ stamp.text ++ "\n;\n\n" ++
    q.script.text

/-- A file in a directory. -/
def joinPath (directory file : String) : String :=
  if directory.endsWith "/" then directory ++ file else directory ++ "/" ++ file

/-- Why a script could not be saved. -/
inductive SaveError where
  | directory (error : FileError)
  | file (path : String) (error : FileError)
deriving DecidableEq

/-- What is said about a script that could not be saved. -/
def SaveError.message : SaveError → String
  | directory error => "IO Error: Failed to create output directory: " ++ error.message
  | file path error => "IO Error: Failed to write script " ++ path ++ ": " ++ error.message

/-- A directory for scripts, with what it takes to save them there. -/
structure Archive (m : Type → Type) where
  directory : String
  /-- Makes a directory and those around it. -/
  makeDirs : String → m (Except FileError Unit)
  writeText : String → String → m (Except FileError Unit)
  now : m Stamp

/-- Saves the script of a question, and says where. -/
def Archive.save {m : Type → Type} [Monad m] (archive : Archive m) (q : Question) :
    m (Except SaveError String) := do
  match ← archive.makeDirs archive.directory with
  | .error e => return .error (.directory e)
  | .ok _ =>
    let stamp ← archive.now
    let path := joinPath archive.directory (Question.tag q ++ "_" ++ stamp.tag ++ ".smt2")
    match ← archive.writeText path (savedScript q stamp) with
    | .error e => return .error (.file path e)
    | .ok _ => return .ok path

/-! ## Verifiers -/

/-- A solver, and perhaps a directory for scripts. -/
structure Verifier (m : Type → Type) where
  archive : Option (Archive m) := none
  ask : String → m (Except SolverError Answer)

namespace Verifier

variable {m : Type → Type} [Monad m] (v : Verifier m)

/-- Saves the script of a question if there is a directory for it. -/
def save (q : Question) : m (Except SaveError (Option String)) :=
  match v.archive with
  | none => return .ok none
  | some archive => return (← archive.save q).map some

/-- Answers a question by asking the solver, at most once. -/
def check (q : Question) : m (Except SaveError Report) := do
  match ← v.save q with
  | .error e => return .error e
  | .ok saved =>
    match q.script.mismatch with
    | some (first, second) => return .ok { q.differing first second with savedTo := saved }
    | none => return .ok { q.conclude (← v.ask q.script.text) with savedTo := saved }

end Verifier

end WhileSmt.Cli
