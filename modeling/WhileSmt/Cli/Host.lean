import WhileSmt.Text.Decimal

/-!
What a run needs from its surroundings: files, one program to start, a clock, and two channels to
print on. Everything else about a run is a function of its options and of what these answer.
-/

namespace WhileSmt.Cli

/-- Why a file or a program cannot be used. -/
inductive FileError where
  | notFound
  | denied
  | alreadyExists
  | notDirectory
  | isDirectory
  | nameTooLong
  | notText
  | other (message : String)
deriving DecidableEq

/-- An error in the words of the operating system, with its number. -/
def FileError.message : FileError → String
  | notFound => "No such file or directory (os error 2)"
  | denied => "Permission denied (os error 13)"
  | alreadyExists => "File exists (os error 17)"
  | notDirectory => "Not a directory (os error 20)"
  | isDirectory => "Is a directory (os error 21)"
  | nameTooLong => "File name too long (os error 36)"
  | notText => "stream did not contain valid UTF-8"
  | other message => message

/-- The error with a number of the operating system; its own words are for numbers without a name
here. -/
def FileError.ofCode (code : Nat) (words : String) : FileError :=
  match code with
  | 2 => notFound
  | 13 => denied
  | 17 => alreadyExists
  | 20 => notDirectory
  | 21 => isDirectory
  | 36 => nameTooLong
  | _ => other (words ++ " (os error " ++ Text.natural code ++ ")")

/-- What a program printed on its two channels. -/
structure ProgramOutput where
  out : String
  err : String

/-- A reading of the clock, as a part of a file name and as a text for readers. -/
structure Stamp where
  tag : String
  text : String

/-- The surroundings of a run, with what each of its requests answers. -/
structure Host (m : Type → Type) where
  /-- Whether the channels understand styles. -/
  colors : Bool
  readText : String → m (Except FileError String)
  writeText : String → String → m (Except FileError Unit)
  /-- Makes a directory and those around it. -/
  makeDirs : String → m (Except FileError Unit)
  /-- Starts a program with arguments and a text to read. -/
  runProgram : String → List String → String → m (Except FileError ProgramOutput)
  now : m Stamp
  out : String → m Unit
  err : String → m Unit

end WhileSmt.Cli
