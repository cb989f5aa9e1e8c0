import Std.Time.DateTime
import WhileSmt.Cli.Clock
import WhileSmt.Cli.Run
import WhileSmt.Cli.Usage

/-!
The command line. The reply of the solver is read from standard input, so that a run which asks the
solver stands behind it in a pipe: a run in mode `smt` prints the script, the solver answers it, and
a run in mode `verify` or `equiv` reads the answer.
-/

namespace WhileSmt

open Cli

/-- The number of an error, which may have been counted downwards from zero. -/
def errorNumber (code : UInt32) : Nat :=
  if code.toNat < 0x80000000 then code.toNat else 0x100000000 - code.toNat

/-- An error of the operating system by its number. -/
def fileError : IO.Error → FileError
  | .alreadyExists _ code details | .invalidArgument _ code details
  | .permissionDenied _ code details | .resourceExhausted _ code details
  | .inappropriateType _ code details | .noSuchThing _ code details
  | .interrupted _ code details | .noFileOrDirectory _ code details
  | .otherError code details | .resourceBusy code details | .resourceVanished code details
  | .unsupportedOperation code details | .hardwareFault code details
  | .unsatisfiedConstraints code details | .illegalOperation code details
  | .protocolError code details | .timeExpired code details =>
    .ofCode (errorNumber code) details
  | .unexpectedEof => .other "unexpected end of file"
  | .userError message => .other message

/-- An action whose errors are results. -/
def guarded {α : Type} (act : IO α) : IO (Except FileError α) := do
  match ← act.toBaseIO with
  | .ok a => return .ok a
  | .error e => return .error (fileError e)

/-- Reads a file, which must hold text. -/
def readTextFile (path : String) : IO (Except FileError String) := do
  match ← guarded (IO.FS.readBinFile path) with
  | .ok bytes =>
    match String.fromUTF8? bytes with
    | some text => return .ok text
    | none => return .error .notText
  | .error e => return .error e

/-- All that is left in a stream, after what has been read. -/
partial def readAll (stream : IO.FS.Stream) (before : ByteArray) : IO ByteArray := do
  let bytes ← stream.read 65536
  if bytes.isEmpty then return before else readAll stream (before ++ bytes)

/-- What a solver has printed, passed on by the caller. -/
def readReply : IO (Except FileError ProgramOutput) := do
  match String.fromUTF8? (← readAll (← IO.getStdin) .empty) with
  | some reply => return .ok { out := reply, err := "" }
  | none => return .error .notText

/-- The reading of the clock. -/
def currentStamp : IO Stamp := do
  let now ← Std.Time.Timestamp.now
  return Stamp.ofMilliseconds now.toMillisecondsSinceUnixEpoch.toInt.toNat

/-- The host over the system that the program runs on. -/
def systemHost : IO (Host IO) := do
  let out ← IO.getStdout
  let err ← IO.getStderr
  let colors := wantsColors (← IO.getEnv "CLICOLOR") (← IO.getEnv "CLICOLOR_FORCE")
    (← IO.getEnv "NO_COLOR") (← out.isTty)
  return {
    colors := colors
    readText := readTextFile
    writeText := fun path text => guarded (IO.FS.writeFile path text)
    makeDirs := fun path => guarded (IO.FS.createDirAll path)
    runProgram := fun _ _ _ => readReply
    now := currentStamp
    out := fun text => do
      out.putStr text
      out.flush
    err := err.putStr }

end WhileSmt

open WhileSmt Cli in
/-- A run from its arguments to its exit code. -/
def main (args : List String) : IO UInt32 := do
  match Options.parse args with
  | .ok options => do
    let exit ← Session.run ⟨← systemHost, options⟩
    return exit.toUInt32
  | .error e =>
    if e.isRequest then
      IO.print e.text
      return 0
    else
      IO.eprint e.text
      return 2
