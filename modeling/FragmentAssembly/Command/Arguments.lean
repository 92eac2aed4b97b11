/-
FragmentAssembly/Command/Arguments.lean

What a command line asks for.  `Command` is the whole of it, `BuildArguments` what the
`build` subcommand is given.  A line can also end early (`Interruption`): it asks for
help or for the version, or something about it is wrong.
-/
import FragmentAssembly.Command.Variable
import FragmentAssembly.Operation.Kind

namespace FragmentAssembly

/-- What the `build` subcommand is given. -/
structure BuildArguments where
  /-- The extensions by which fragment files are chosen in a directory. -/
  extensions : List String
  /-- Fragment files, and directories that hold them. -/
  fragmentPaths : List String
  /-- Whether the document is written as a JSON string. -/
  json : Bool
  /-- The kind of the operation. -/
  kind : OperationKind
  /-- The name of the operation. -/
  name : Option String
  /-- The variables of the operation. -/
  declared : List Variable
  /-- The file that holds the operation or its body. -/
  operationFile : String
deriving DecidableEq, Repr

/-- A command line: the flag of the program, and the arguments of the subcommand if there
is one. -/
structure Command where
  verbose : Bool
  build : Option BuildArguments
deriving DecidableEq, Repr

/-- What can be wrong about a command line. -/
inductive ArgumentError where
  /-- An option that does not exist, or something where nothing is expected. -/
  | unknownArgument
  /-- A subcommand that does not exist. -/
  | invalidSubcommand
  /-- A value that is missing, empty, or none of those allowed. -/
  | invalidValue
  /-- A value that declares no variable. -/
  | invalidVariable (e : VariableError)
  /-- Something given twice that may be given once. -/
  | conflict
  /-- A value for a flag, which takes none. -/
  | unexpectedValue
  /-- The operation file is not given. -/
  | missingArgument
deriving DecidableEq, Repr

/-- The wording of a failure. -/
def ArgumentError.message : ArgumentError → String
  | unknownArgument => "unexpected argument found"
  | invalidSubcommand => "unrecognized subcommand"
  | invalidValue => "a value is missing or not allowed"
  | invalidVariable e => s!"invalid value for '--var': {e.message}"
  | conflict => "an argument cannot be used multiple times"
  | unexpectedValue => "unexpected value for a flag"
  | missingArgument => "the following required arguments were not provided: <OPERATION_FILE>"

/-- Why a command line ends early. -/
inductive Interruption where
  /-- It asks for the help of the program. -/
  | help
  /-- It asks for the help of the `build` subcommand. -/
  | buildHelp
  /-- It asks for the version. -/
  | version
  /-- It is wrong. -/
  | refused (e : ArgumentError)
deriving DecidableEq, Repr

end FragmentAssembly
