/-
FragmentAssembly/Program.lean

The whole program, as a function: from a tree of files, a command line and the setting
of the log level to what is written and the exit code.
-/
import FragmentAssembly.Command.Build
import FragmentAssembly.Command.Line

namespace FragmentAssembly

/-- What the program writes, and how it ends. -/
structure Output where
  exitCode : Nat
  stdout : String := ""
  stderr : String := ""
  events : List Event := []
deriving DecidableEq, Repr

/-- A line of the error stream. -/
inductive ErrorLine where
  /-- The first line of a log entry. -/
  | log (text : String)
  /-- A line on which a log entry goes on, or a line of the report. -/
  | other (text : String)
deriving DecidableEq, Repr

/-- The lines of the error stream: those of the log, and then those of the report. -/
def Output.errorLines (o : Output) : List ErrorLine :=
  o.events.flatMap entry ++ (Text.lines o.stderr).map .other
where
  /-- The lines of one log entry. -/
  entry (e : Event) : List ErrorLine :=
    match Text.lines (e.written ++ "\n") with
    | [] => []
    | first :: rest => .log first :: rest.map .other

namespace Program

/-! ### Texts -/

/-- What the program says about its version. -/
def versionText : String := "graphql-builder 0.1.0\n"

/-- The help of the program. -/
def helpText : String :=
  "Usage: graphql-builder [OPTIONS] [COMMAND]\n\n" ++
  "Commands:\n" ++
  "  build  Assemble an operation and the fragments it uses into one document\n" ++
  "  help   Print this message or the help of the given subcommand(s)\n\n" ++
  "Options:\n" ++
  "  -v, --verbose  Enable verbose output.\n" ++
  "  -h, --help     Print help\n" ++
  "  -V, --version  Print version\n"

/-- The help of the `build` subcommand. -/
def buildHelpText : String :=
  "Assemble an operation and the fragments it uses into one document\n\n" ++
  "Usage: graphql-builder build [OPTIONS] <OPERATION_FILE>\n\n" ++
  "Arguments:\n" ++
  "  <OPERATION_FILE>  Operation file: a whole operation, or with --name/--var its body\n\n" ++
  "Options:\n" ++
  "      --fragment-exts <LIST>  Extensions of fragment files [default: graphql,gql]\n" ++
  "  -f, --fragments <PATH>      Fragment file, or directory of fragment files\n" ++
  "      --json                  Emit the document as a JSON string\n" ++
  "      --kind <KIND>           Kind of the operation [default: query]\n" ++
  "      --name <NAME>           Name of the operation\n" ++
  "      --var <VARIABLE>        Variable declaration in `name=Type` form\n" ++
  "  -h, --help                  Print help\n"

/-- What stands in front of the report of a failed build. -/
def failureMark : String := "❌ "

/-! ### Log level -/

/-- The level when nothing else is said. -/
def defaultLevel : LogLevel := .info

/-- The level of a verbose program, or else the one that the setting names; and whether
the setting was of no use. -/
def chooseLevel (verbose : Bool) (setting : Option String) : LogLevel × List Event :=
  if verbose then (.debug, [])
  else
    match setting with
    | none => (defaultLevel, [])
    | some setting =>
      match LogLevel.ofSetting? setting with
      | some level => (level, [])
      | none => (defaultLevel, [.levelUnknown (Text.trim setting)])

/-! ### Running -/

/-- What a line that ends early leads to. -/
def interrupted : Interruption → Output
  | .help => { exitCode := 0, stdout := helpText }
  | .buildHelp => { exitCode := 0, stdout := buildHelpText }
  | .version => { exitCode := 0, stdout := versionText }
  | .refused e => { exitCode := 2, stderr := s!"error: {e.message}\n" }

/-- What the report of a failed build says. -/
def failureReport (e : BuildError) : String :=
  failureMark ++ e.message

/-- What a command leads to, with every event. -/
def execute (t : FileTree) (command : Command) : Output :=
  match command.build with
  | none => { exitCode := 0, stdout := helpText }
  | some arguments =>
    let built := Build.run t arguments
    match built.outcome with
    | .ok document => { exitCode := 0, stdout := document ++ "\n", events := built.events }
    | .error e => { exitCode := 1, stderr := failureReport e ++ "\n", events := built.events }

/-- Runs the program.  Only the events that the level lets through are kept. -/
def run (t : FileTree) (line : List String) (setting : Option String) : Output :=
  match Command.ofLine line with
  | .error e => interrupted e
  | .ok command =>
    let (level, warnings) := chooseLevel command.verbose setting
    let output := execute t command
    let events := .levelSet level :: warnings ++ output.events
    { output with events := events.filter fun e => level.enables e.level }

end Program

end FragmentAssembly
