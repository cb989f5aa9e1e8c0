import WhileSmt.Cli.Host
import WhileSmt.Names

/-!
A host that keeps everything in memory: files and directories, at most one program that can be
started, and what was printed. With it a run is a function.

A place is a list of steps from the working directory. The directories above it exist and are
reached by double dots; a place that starts with a slash is counted from the root of all places,
where nothing is known but the empty device.
-/

namespace WhileSmt.Cli

/-- What the host knows: the files with their contents, the program that can be started, and what
has been printed on the two channels. -/
structure Memory where
  files : NameMap ByteArray := ∅
  /-- The directories that were made, besides those that the files lie in. -/
  made : List String := []
  /-- The path of the program that can be started, and what it prints. -/
  program : Option (String × ProgramOutput) := none
  /-- The arguments and the text that the program was started with. -/
  started : Option (List String × String) := none
  out : String := ""
  err : String := ""

namespace Memory

/-! ## Places -/

/-- The steps that lead to a file or a directory. -/
abbrev Place := List String

/-- A place as a path. -/
def Place.text (place : Place) : String :=
  "/".intercalate place

/-- The directory around a place. Above the working directory there is always another one. -/
def Place.around (place : Place) : Place :=
  if place = ["/"] then place
  else if place.all (· = "..") then place ++ [".."]
  else place.dropLast

/-- A device that is empty when read and takes any text; it is outside the working directory. -/
def emptyDevice : String :=
  Place.text ["/", "dev", "null"]

/-- A memory with some files, and perhaps a program that can be started. -/
def ofFiles (files : List (String × ByteArray)) (program : Option (String × ProgramOutput)) :
    Memory where
  files := files.foldl (fun m (name, bytes) => m.insert name bytes)
    ((∅ : NameMap ByteArray).insert emptyDevice .empty)
  program := program

/-- The files inside the working directory. -/
def ownFiles (memory : Memory) : List (String × ByteArray) :=
  memory.files.toList.filter fun (name, _) => !name.startsWith "/" && !name.startsWith "../"

/-- Whether there is a file at a place, or the program. -/
def isFile (memory : Memory) (place : Place) : Bool :=
  memory.files.contains place.text || memory.program.map Prod.fst = some place.text

/-- Whether there is a directory at a place: one of those that always exist, one that was made, or
one that a file lies in. -/
def isDirectory (memory : Memory) (place : Place) : Bool :=
  place.all (fun step => step = ".." || step = "/") || place.text ∈ memory.made ||
    memory.files.keys.any fun file => (place.text ++ "/").isPrefixOf file

/-! ## Paths -/

/-- The greatest number of bytes of a step. -/
def stepLimit : Nat := 255

/-- The greatest number of bytes of a path. -/
def pathLimit : Nat := 4095

/-- Whether a step leads to no new name. -/
def isDots (step : String) : Bool :=
  step = "." || step = ".."

/-- Goes one step from a directory into another one that exists. -/
def enter (memory : Memory) (here : Place) (step : String) : Except FileError Place :=
  if step = "" || step = "." then .ok here
  else if step = ".." then .ok here.around
  else if stepLimit < step.utf8ByteSize then .error .nameTooLong
  else if memory.isDirectory (here ++ [step]) then .ok (here ++ [step])
  else if memory.isFile (here ++ [step]) then .error .notDirectory
  else .error .notFound

/-- The steps of a path without the slashes at its end. -/
def steps (path : String) : List String :=
  ((path.splitOn "/").reverse.dropWhile (· = "")).reverse

/-- Goes along a path up to its last step: the directory reached, and that step. -/
def approach (memory : Memory) (path : String) : Except FileError (Place × String) := do
  if path = "" then throw .notFound
  if pathLimit < path.utf8ByteSize then throw .nameTooLong
  let start : Place := if path.startsWith "/" then ["/"] else []
  let here ← (steps path).dropLast.foldlM memory.enter start
  return (here, (steps path).getLastD ".")

/-- Where a path leads, which must exist. Only a directory may have a slash after it. -/
def locate (memory : Memory) (path : String) : Except FileError Place := do
  let (here, last) ← memory.approach path
  if isDots last then memory.enter here last
  else if stepLimit < last.utf8ByteSize then throw .nameTooLong
  else if memory.isDirectory (here ++ [last]) then return here ++ [last]
  else if memory.isFile (here ++ [last]) then
    if path.endsWith "/" then throw .notDirectory else return here ++ [last]
  else throw .notFound

/-! ## Operations -/

/-- Reads a file, which must hold text. -/
def readText (memory : Memory) (path : String) : Except FileError String := do
  let place ← memory.locate path
  if memory.isDirectory place then throw .isDirectory
  match memory.files.get? place.text with
  | none => throw .denied
  | some bytes =>
    match String.fromUTF8? bytes with
    | some text => return text
    | none => throw .notText

/-- The file that can be written under a path; it need not exist. A path with a slash at its end is
that of a directory. -/
def fileAt (memory : Memory) (path : String) : Except FileError String := do
  let (here, last) ← memory.approach path
  if isDots last || path.endsWith "/" then throw .isDirectory
  if stepLimit < last.utf8ByteSize then throw .nameTooLong
  if memory.isDirectory (here ++ [last]) then throw .isDirectory
  return Place.text (here ++ [last])

/-- Writes a file. -/
def writeText (memory : Memory) (path text : String) : Except FileError Memory :=
  (memory.fileAt path).map fun file =>
    { memory with files := memory.files.insert file text.toUTF8 }

/-- The directory that can be made under a path, in a directory that exists. -/
def directoryAt (memory : Memory) (path : String) : Except FileError String := do
  let (here, last) ← memory.approach path
  if isDots last then throw .alreadyExists
  if stepLimit < last.utf8ByteSize then throw .nameTooLong
  let place := here ++ [last]
  if memory.isDirectory place || memory.isFile place then throw .alreadyExists
  return place.text

/-- Makes one directory. -/
def makeDir (memory : Memory) (path : String) : Except FileError Memory :=
  (memory.directoryAt path).map fun directory =>
    { memory with made := directory :: memory.made }

/-- Makes one directory unless it is there. -/
def ensureDir (memory : Memory) (path : String) : Except FileError Memory :=
  match memory.makeDir path with
  | .error .alreadyExists =>
    match memory.locate path with
    | .ok place => if memory.isDirectory place then .ok memory else .error .alreadyExists
    | .error _ => .error .alreadyExists
  | result => result

/-- A path and the paths of the directories around it, the longest first. Slashes and single dots
at the end of a path name no directory of their own. -/
def pathsUp (path : String) : List String :=
  let named := ((path.splitOn "/").reverse.dropWhile fun step => step = "" || step = ".").reverse
  let fronts := (List.range named.length).reverse.map named.take
  path :: (fronts.filter fun front =>
    front.getLastD "" ≠ "" && front.getLastD "" ≠ ".").map "/".intercalate

/-- Makes the first directory of a list; one that has nothing around it has to wait for the rest. -/
def ensureFirst (memory : Memory) : List String → Except FileError Memory
  | [] => .ok memory
  | path :: rest =>
    match memory.ensureDir path with
    | .error .notFound => do (← memory.ensureFirst rest).ensureDir path
    | result => result

/-- Makes a directory and those around it. -/
def makeDirs (memory : Memory) (path : String) : Except FileError Memory :=
  memory.ensureFirst (pathsUp path)

/-- What the program under a name prints. The name is a path: a bare name is looked for elsewhere, in
directories that hold no programs; what is found there under a dot is a directory. -/
def programOutput (memory : Memory) (name : String) : Except FileError ProgramOutput := do
  if !name.contains '/' then
    if isDots name then throw .denied
    if stepLimit < name.utf8ByteSize then throw .nameTooLong
    throw .notFound
  let place ← memory.locate name
  match memory.program with
  | some (path, output) =>
    if place.text = path then return output else throw .denied
  | none => throw .denied

/-- Starts a program. -/
def runProgram (memory : Memory) (name : String) (arguments : List String) (input : String) :
    Except FileError (ProgramOutput × Memory) :=
  (memory.programOutput name).map fun output =>
    (output, { memory with started := some (arguments, input) })

/-! ## The host -/

/-- Keeps the memory after a change, or reports why there is none. -/
def apply (change : Memory → Except FileError Memory) :
    StateM Memory (Except FileError Unit) := do
  match change (← get) with
  | .ok memory =>
    set memory
    return .ok ()
  | .error e => return .error e

/-- The host over a memory; the clock always shows `stamp`. -/
def host (colors : Bool) (stamp : Stamp) : Host (StateM Memory) where
  colors := colors
  readText path := do return (← get).readText path
  writeText path text := apply (·.writeText path text)
  makeDirs path := apply (·.makeDirs path)
  runProgram name arguments input := do
    match (← get).runProgram name arguments input with
    | .ok (output, memory) =>
      set memory
      return .ok output
    | .error e => return .error e
  now := return stamp
  out text := modify fun memory => { memory with out := memory.out ++ text }
  err text := modify fun memory => { memory with err := memory.err ++ text }

end Memory

end WhileSmt.Cli
