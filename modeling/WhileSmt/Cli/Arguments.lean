import WhileSmt.Cli.Options

/-!
Reading the arguments of a run. The value of an option may be attached or be the next argument;
short flags may be joined. A value is taken up when the argument after it settles it, so a fault in
a value is reported only if the next argument is not itself unknown.
-/

namespace WhileSmt.Cli

/-- What is wrong with the arguments, or what they ask for instead of a run. -/
inductive UsageError where
  | invalidValue
  | valueValidation
  | unknownArgument
  | argumentConflict
  | missingArgument
  | tooManyValues
  | help
  | version
deriving DecidableEq

/-- What an argument can set. -/
inductive Key where
  | input
  | against
  | mode
  | output
  | outputDir
  | format
  | unroll
  | timeout
  | solver
  | noOptimize
  | encodeOptimized
  | showSpans
  | verbose
  | quiet
  | noColor
  | help
  | version
deriving DecidableEq

namespace Key

/-- Whether a value belongs to the option; the others are flags. -/
def takesValue : Key → Bool
  | input | against | mode | output | outputDir | format | unroll | timeout | solver => true
  | _ => false

/-- The option with a name after two dashes. -/
def ofLong? : String → Option Key
  | "against" => some against
  | "mode" => some mode
  | "output" => some output
  | "output-dir" => some outputDir
  | "format" => some format
  | "unroll" => some unroll
  | "timeout" => some timeout
  | "solver" => some solver
  | "no-optimize" => some noOptimize
  | "encode-optimized" => some encodeOptimized
  | "show-spans" => some showSpans
  | "verbose" => some verbose
  | "quiet" => some quiet
  | "no-color" => some noColor
  | "help" => some help
  | "version" => some version
  | _ => none

/-- The option with a letter after one dash. -/
def ofShort? : Char → Option Key
  | 'm' => some mode
  | 'o' => some output
  | 'v' => some verbose
  | 'q' => some quiet
  | 'h' => some help
  | 'V' => some version
  | _ => none

end Key

/-- A file name; it must not be empty. -/
def readName (text : String) : Except UsageError String :=
  if text.isEmpty then .error .invalidValue else .ok text

/-- A number of 32 bits without a sign. -/
def readCount (text : String) : Except UsageError Nat :=
  match Text.readInteger? text.toList with
  | some n => if 0 ≤ n && n < 0x100000000 then .ok n.toNat else .error .valueValidation
  | none => .error .valueValidation

/-- The value of an option that knows only some words. -/
def readChoice {α : Type} (choice : Option α) : Except UsageError α :=
  match choice with
  | some a => .ok a
  | none => .error .invalidValue

/-- Sets an option to a value; a key without a value leaves the options as they are. -/
def Options.setValue (o : Options) (key : Key) (text : String) : Except UsageError Options :=
  match key with
  | .input => return { o with input := ← readName text }
  | .against => return { o with against := some (← readName text) }
  | .mode => return { o with mode := ← readChoice (Mode.ofName? text) }
  | .output => return { o with output := some (← readName text) }
  | .outputDir => return { o with outputDir := some (← readName text) }
  | .format => return { o with format := ← readChoice (formatOfName? text) }
  | .unroll => return { o with unroll := ← readCount text }
  | .timeout => return { o with timeout := ← readCount text }
  | .solver => return { o with solver := ← readName text }
  | _ => .ok o

/-- Switches a flag on. -/
def Options.setFlag (o : Options) : Key → Except UsageError Options
  | .noOptimize => .ok { o with noOptimize := true }
  | .encodeOptimized => .ok { o with encodeOptimized := true }
  | .showSpans => .ok { o with showSpans := true }
  | .verbose => .ok { o with verbose := true }
  | .quiet => .ok { o with quiet := true }
  | .noColor => .ok { o with noColor := true }
  | .help => .error .help
  | .version => .error .version
  | _ => .ok o

/-- The arguments read so far: the keys that are set, and one key whose value is still to come or
still to be taken up. -/
structure Draft where
  options : Options := { input := "" }
  given : List Key := []
  waiting : Option (Key × Option String) := none

namespace Draft

/-- Whether the source file has been named. -/
def hasInput (d : Draft) : Bool :=
  Key.input ∈ d.given || (d.waiting.map Prod.fst) = some Key.input

/-- Marks a key as given; every key is given at most once. -/
def give (d : Draft) (key : Key) : Except UsageError Draft :=
  if key ∈ d.given then .error .argumentConflict
  else .ok { d with given := key :: d.given }

/-- Gives an option its value; no option is given twice. -/
def assign (d : Draft) (key : Key) (text : String) : Except UsageError Draft := do
  let d ← d.give key
  return { d with options := ← d.options.setValue key text }

/-- Takes up the waiting value. -/
def settle (d : Draft) : Except UsageError Draft :=
  match d.waiting with
  | none => .ok d
  | some (_, none) => .error .invalidValue
  | some (key, some text) => assign { d with waiting := none } key text

/-- An option with its value attached. -/
def attach (d : Draft) (key : Key) (text : String) : Except UsageError Draft := do
  (← d.settle).assign key text

/-- An option whose value is the next argument. -/
def await (d : Draft) (key : Key) : Except UsageError Draft := do
  return { ← d.settle with waiting := some (key, none) }

/-- Sets a flag. -/
def raise (d : Draft) (key : Key) : Except UsageError Draft := do
  let d ← (← d.settle).give key
  return { d with options := ← d.options.setFlag key }

/-- An argument that is no option: the input, of which there is one. -/
def positional (d : Draft) (text : String) : Except UsageError Draft :=
  if d.hasInput then .error .unknownArgument
  else do return { ← d.settle with waiting := some (.input, some text) }

/-- The name of a long option and the value attached to it. -/
def splitEquals : List Char → List Char × Option (List Char)
  | [] => ([], none)
  | '=' :: rest => ([], some rest)
  | c :: rest =>
    let (name, value) := splitEquals rest
    (c :: name, value)

/-- An argument with two dashes, whose value may follow an equals sign. -/
def long (d : Draft) (text : List Char) : Except UsageError Draft :=
  let (name, value) := splitEquals text
  match Key.ofLong? (String.ofList name) with
  | none => .error .unknownArgument
  | some key =>
    match key.takesValue, value with
    | true, some value => d.attach key (String.ofList value)
    | true, none => d.await key
    | false, some _ => .error .tooManyValues
    | false, none => d.raise key

/-- Joined short options; the first that takes a value takes all that follows it. -/
def short (d : Draft) : List Char → Except UsageError Draft
  | [] => .ok d
  | c :: rest =>
    match Key.ofShort? c with
    | none => .error .unknownArgument
    | some key =>
      if key.takesValue then
        match rest with
        | [] => d.await key
        | '=' :: value => d.attach key (String.ofList value)
        | value => d.attach key (String.ofList value)
      else do
        (← d.raise key).short rest

/-- Reads one argument before a double dash. -/
def read (d : Draft) (argument : String) : Except UsageError Draft :=
  match argument.toList with
  | '-' :: '-' :: text => d.long text
  | '-' :: c :: text => d.short (c :: text)
  | _ =>
    match d.waiting with
    | some (key, none) => .ok { d with waiting := some (key, some argument) }
    | _ => d.positional argument

/-- Reads the arguments. After a double dash none of them is an option. -/
def readAll (d : Draft) (plain : Bool) : List String → Except UsageError Draft
  | [] => d.settle
  | argument :: rest =>
    if plain then do readAll (← d.positional argument) true rest
    else if argument = "--" then readAll d true rest
    else do readAll (← d.read argument) false rest

end Draft

/-- The options that some arguments ask for. -/
def Options.parse (arguments : List String) : Except UsageError Options := do
  let d ← Draft.readAll {} false arguments
  if Key.input ∈ d.given then return d.options else .error .missingArgument

end WhileSmt.Cli
