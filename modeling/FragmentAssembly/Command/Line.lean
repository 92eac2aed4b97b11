/-
FragmentAssembly/Command/Line.lean

Reading a command line.  The arguments are taken from left to right, and the first thing
that is wrong decides.  Each argument has one of four forms (`Token`): two dashes, a
long option, short options in a row, or a plain word.

A value that stands on its own, be it of an option or the operation file, is not looked
at when it is read but when the next thing begins, or at the end (`Reading.settle`).
So an option that does not exist, and a plain word too many, is reported before a wrong
value in front of it, and everything else after it.  A value that is joined to its option
is looked at once.
-/
import FragmentAssembly.Command.Arguments

namespace FragmentAssembly.Command

/-! ### The form of an argument -/

/-- The form of one argument. -/
inductive Token where
  /-- Two dashes: no option comes after them. -/
  | endOfOptions
  /-- `--name` or `--name=value`. -/
  | long (name : String) (value : Option String)
  /-- `-abc`: short options in a row, the last perhaps with its value. -/
  | short (letters : List Char)
  /-- Anything else. -/
  | word (text : String)
deriving DecidableEq, Repr

/-- The form of an argument.  A single dash is a word. -/
def Token.ofArgument (argument : String) : Token :=
  match argument.toList with
  | ['-', '-'] => .endOfOptions
  | '-' :: '-' :: rest =>
    match Text.splitFirst? '=' (String.ofList rest) with
    | some (name, value) => .long name (some value)
    | none => .long (String.ofList rest) none
  | '-' :: c :: rest => .short (c :: rest)
  | _ => .word argument

/-! ### The arguments of `build` -/

/-- What takes a value. -/
inductive Slot where
  | extensions
  | fragmentPaths
  | kind
  | name
  | declaration
  | operationFile
deriving DecidableEq, Repr

/-- The options of `build`. -/
inductive BuildOption where
  | valued (slot : Slot)
  | json
  | help
deriving DecidableEq, Repr

/-- The option of a long name. -/
def BuildOption.ofName? : String → Option BuildOption
  | "fragment-exts" => some (.valued .extensions)
  | "fragments" => some (.valued .fragmentPaths)
  | "json" => some .json
  | "kind" => some (.valued .kind)
  | "name" => some (.valued .name)
  | "var" => some (.valued .declaration)
  | "help" => some .help
  | _ => none

/-- What was given so far. -/
structure Given where
  extensions : List String := []
  fragmentPaths : List String := []
  json : Bool := false
  kind : Option OperationKind := none
  name : Option String := none
  declared : List Variable := []
  operationFile : Option String := none
deriving DecidableEq, Repr

/-- The extensions when none are given. -/
def defaultExtensions : List String := ["graphql", "gql"]

namespace Given

/-- Puts a value into a slot.  The slots of a single value refuse a second one, whatever
it is. -/
def put (g : Given) : Slot → String → Except ArgumentError Given
  | .extensions, value => .ok { g with extensions := g.extensions ++ Text.splitOn ',' value }
  | .fragmentPaths, value =>
    if value.isEmpty then .error .invalidValue
    else .ok { g with fragmentPaths := g.fragmentPaths ++ [value] }
  | .kind, value =>
    if g.kind.isSome then .error .conflict
    else match OperationKind.ofWord? value with
      | none => .error .invalidValue
      | some kind => .ok { g with kind := some kind }
  | .name, value =>
    if g.name.isSome then .error .conflict else .ok { g with name := some value }
  | .declaration, value =>
    match Variable.ofArgument value with
    | .error e => .error (.invalidVariable e)
    | .ok v => .ok { g with declared := g.declared ++ [v] }
  | .operationFile, value =>
    if value.isEmpty then .error .invalidValue
    else .ok { g with operationFile := some value }

/-- The arguments, with defaults for what was not given. -/
def arguments (g : Given) : Except ArgumentError BuildArguments :=
  match g.operationFile with
  | none => .error .missingArgument
  | some operationFile =>
    .ok {
      extensions := if g.extensions.isEmpty then defaultExtensions else g.extensions
      fragmentPaths := g.fragmentPaths
      json := g.json
      kind := g.kind.getD .query
      name := g.name
      declared := g.declared
      operationFile := operationFile }

end Given

/-- A slot that was opened, with the value that was read for it. -/
structure Opened where
  slot : Slot
  value : Option String
deriving DecidableEq, Repr

/-- How far the arguments of `build` are read. -/
structure Reading where
  given : Given := {}
  /-- The slot that is not settled yet. -/
  opened : Option Opened := none
  /-- Whether the operation file was read. -/
  fileRead : Bool := false
  /-- Whether options have ended. -/
  optionsEnded : Bool := false
deriving DecidableEq, Repr

namespace Reading

/-- Puts the value that was read into its slot. -/
def settle (s : Reading) : Except Interruption Reading :=
  match s.opened with
  | none => .ok s
  -- the option was the last thing on the line, or another option followed at once
  | some ⟨_, none⟩ => .error (.refused .invalidValue)
  | some ⟨slot, some value⟩ =>
    match s.given.put slot value with
    | .error e => .error (.refused e)
    | .ok given => .ok { s with given, opened := none }

/-- Opens a slot for the value that comes next. -/
def «open» (s : Reading) (slot : Slot) : Except Interruption Reading := do
  return { ← s.settle with opened := some ⟨slot, none⟩ }

/-- Puts a value that is joined to its option. -/
def putJoined (s : Reading) (slot : Slot) (value : String) : Except Interruption Reading := do
  settle { ← s.settle with opened := some ⟨slot, some value⟩ }

/-- Reads the flag for a JSON string. -/
def setJson (s : Reading) : Except Interruption Reading := do
  let s ← s.settle
  if s.given.json then .error (.refused .conflict)
  else return { s with given := { s.given with json := true } }

/-- Reads the flag for help. -/
def askHelp (s : Reading) : Except Interruption Reading := do
  let _ ← s.settle
  .error .buildHelp

/-- Reads a long option. -/
def long (s : Reading) (name : String) (value : Option String) : Except Interruption Reading :=
  match BuildOption.ofName? name, value with
  -- the slot that is open stays unsettled: a wrong value in it is not reported any more
  | none, _ => .error (.refused .unknownArgument)
  | some (.valued slot), none => s.open slot
  | some (.valued slot), some value => s.putJoined slot value
  | some .json, none => s.setJson
  | some .help, none => s.askHelp
  | some _, some _ => .error (.refused .unexpectedValue)

/-- Reads short options in a row: `-h`, or `-f` with what follows it as its value, an equals
sign between them not counted. -/
def short (s : Reading) : List Char → Except Interruption Reading
  | ['f'] => s.open .fragmentPaths
  | 'f' :: '=' :: value => s.putJoined .fragmentPaths (String.ofList value)
  | 'f' :: value => s.putJoined .fragmentPaths (String.ofList value)
  | 'h' :: _ => s.askHelp
  | _ => .error (.refused .unknownArgument)

/-- Reads a word that belongs to no option. -/
def positional (s : Reading) (text : String) : Except Interruption Reading := do
  -- a word too many is wrong whatever stands in the open slot
  if s.fileRead then .error (.refused .unknownArgument)
  else return { ← s.settle with opened := some ⟨.operationFile, some text⟩, fileRead := true }

/-- Reads a word: the value of the option in front of it, if that still waits for one. -/
def word (s : Reading) (text : String) : Except Interruption Reading :=
  match s.opened with
  | some ⟨slot, none⟩ => .ok { s with opened := some ⟨slot, some text⟩ }
  | _ => s.positional text

/-- Reads one argument. -/
def step (s : Reading) (argument : String) : Except Interruption Reading :=
  if s.optionsEnded then s.positional argument
  else
    match Token.ofArgument argument with
    | .endOfOptions => .ok { s with optionsEnded := true }
    | .long name value => s.long name value
    | .short letters => s.short letters
    | .word text => s.word text

/-- The arguments, when everything is read. -/
def finish (s : Reading) : Except Interruption BuildArguments := do
  match (← s.settle).given.arguments with
  | .error e => .error (.refused e)
  | .ok arguments => .ok arguments

end Reading

/-- Reads the arguments of `build`. -/
def readBuild (arguments : List String) : Except Interruption BuildArguments := do
  (← arguments.foldlM Reading.step {}).finish

/-! ### The whole line -/

/-- The flags of the program. -/
inductive ProgramFlag where
  | verbose
  | help
  | version
deriving DecidableEq, Repr

namespace ProgramFlag

/-- The flag of a long name. -/
def ofName? : String → Option ProgramFlag
  | "verbose" => some verbose
  | "help" => some help
  | "version" => some version
  | _ => none

/-- The flag of a letter. -/
def ofLetter? : Char → Option ProgramFlag
  | 'v' => some verbose
  | 'h' => some help
  | 'V' => some version
  | _ => none

/-- Sets a flag, given whether the program is verbose already. -/
def set (flag : ProgramFlag) (isVerbose : Bool) : Except Interruption Bool :=
  match flag with
  | verbose => if isVerbose then .error (.refused .conflict) else .ok true
  | help => .error .help
  | version => .error .version

end ProgramFlag

/-- Sets the flags of letters in a row. -/
def setLetters (isVerbose : Bool) (letters : List Char) : Except Interruption Bool :=
  letters.foldlM (fun isVerbose letter =>
    match ProgramFlag.ofLetter? letter with
    | none => .error (.refused .unknownArgument)
    | some flag => flag.set isVerbose) isVerbose

/-- Reads what comes after the `help` subcommand: nothing, or the name of a subcommand. -/
def readHelp : List String → Interruption
  | [] => .help
  | ["help"] => .help
  | ["build"] => .buildHelp
  | _ => .refused .invalidSubcommand

/-- Reads what comes after two dashes in front of a subcommand: a subcommand is not
recognised there. -/
def readAfterEnd (isVerbose : Bool) : List String → Except Interruption Command
  | [] => .ok ⟨isVerbose, none⟩
  | text :: _ =>
    if text = "build" ∨ text = "help" then .error (.refused .unknownArgument)
    else .error (.refused .invalidSubcommand)

/-- Reads a command line, given whether the program is verbose already. -/
def readFrom (isVerbose : Bool) : List String → Except Interruption Command
  | [] => .ok ⟨isVerbose, none⟩
  | argument :: rest =>
    match Token.ofArgument argument with
    | .endOfOptions => readAfterEnd isVerbose rest
    | .long name value =>
      match ProgramFlag.ofName? name, value with
      | none, _ => .error (.refused .unknownArgument)
      | some _, some _ => .error (.refused .unexpectedValue)
      | some flag, none => do readFrom (← flag.set isVerbose) rest
    | .short letters => do readFrom (← setLetters isVerbose letters) rest
    | .word "build" => do return ⟨isVerbose, some (← readBuild rest)⟩
    | .word "help" => .error (readHelp rest)
    | .word _ => .error (.refused .invalidSubcommand)

/-- Reads a command line. -/
def ofLine (line : List String) : Except Interruption Command :=
  readFrom false line

end FragmentAssembly.Command
