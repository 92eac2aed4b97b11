/-
FragmentAssembly/Command/Build.lean

The `build` subcommand: finds the fragment files, registers them in order, reads the
operation file, and assembles the document.

A failure is reported with everything behind it, from the outside in (`BuildError.chain`);
some causes therefore stand in the report twice, once inside the wording of what they
caused and once on their own.
-/
import FragmentAssembly.Command.Arguments
import FragmentAssembly.Command.Discovery
import FragmentAssembly.Operation.Assembly
import FragmentAssembly.Registry.Load
import FragmentAssembly.Text.JsonString

namespace FragmentAssembly

/-- Why a build fails. -/
inductive BuildError where
  /-- A path that was given cannot be scanned. -/
  | scan (e : Discovery.ScanError)
  /-- A fragment file is refused. -/
  | load (path : String) (e : LoadError)
  /-- The operation file cannot be read. -/
  | readOperation (path : String) (cause : FileError)
  /-- The operation cannot be assembled. -/
  | assemble (path : String) (e : OperationError)
deriving DecidableEq, Repr

/-- A failure of a walk, and what caused it. -/
def WalkError.chain (e : WalkError) : List String :=
  match e with
  | unreachable _ cause => [e.message, cause.message]
  | loop _ _ => [e.message]

/-- A refusal of a fragment file, and what caused it. -/
def LoadError.chain (e : LoadError) : List String :=
  match e with
  | unreadable _ cause => [e.message, cause.message]
  | refused _ => [e.message]

/-- A failure to assemble an operation, and what caused it. -/
def OperationError.chain (e : OperationError) : List String :=
  [e.message, e.reference.message]

namespace BuildError

open Text (Quoted.encode)

/-- What failed, and what caused it, from the outside in. -/
def chain : BuildError → List String
  | scan e => s!"Failed to scan fragment files at/under {Quoted.encode e.path}" :: e.cause.chain
  | load path e => s!"Failed to load fragment from {Quoted.encode path}" :: e.chain
  | readOperation path cause =>
    [s!"Failed to read operation file {Quoted.encode path}", cause.message]
  | assemble path e => s!"Failed to build operation from {Quoted.encode path}" :: e.chain

/-- The wording of a failure. -/
def message (e : BuildError) : String :=
  ": ".intercalate e.chain

end BuildError

namespace Build

/-- Registers fragment files one after another. -/
def loadAll (t : FileTree) (r : Registry) : List String → Logged BuildError Registry
  | [] => return r
  | path :: rest => do
    let (loaded, r) := r.load t path
    let f ← loaded.mapError (.load path)
    Logged.log (.fragmentLoaded f.name path)
    loadAll t r rest

/-- What the operation is made from: the file's text as it is, or, if a name or a variable
is given, a draft with that text as its body. -/
def operationInput (a : BuildArguments) (content : String) : OperationInput :=
  let body := Text.trimEnd content
  if a.name.isNone && a.declared.isEmpty then .text body
  else
    let draft := OperationDraft.withVariables ⟨body, none, []⟩ a.declared
    match a.name with
    | none => .draft draft
    | some name => .draft (draft.withName name)

/-- The registry of all fragment files. -/
def registry (t : FileTree) (a : BuildArguments) : Logged BuildError Registry := do
  let files ← (Discovery.find t a.extensions a.fragmentPaths).mapError .scan
  Logged.log (.filesFound files.length)
  loadAll t .empty files

/-- The assembled operation. -/
def operation (t : FileTree) (a : BuildArguments) : Logged BuildError Operation := do
  let r ← registry t a
  let content ← Logged.ofExcept ((t.read a.operationFile).mapError (.readOperation a.operationFile))
  (r.assemble a.kind (operationInput a content)).mapError (.assemble a.operationFile)

/-- How a document is written out. -/
def render (json : Bool) (document : String) : String :=
  if json then Text.JsonString.encode document else document

/-- What the subcommand writes. -/
def run (t : FileTree) (a : BuildArguments) : Logged BuildError String := do
  return render a.json (← operation t a).document

end Build

end FragmentAssembly
