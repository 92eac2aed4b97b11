/-
FragmentAssembly/Registry/Load.lean

Adding a fragment from a file.  The file's text without its trailing blanks is added as
the text of a whole definition.
-/
import FragmentAssembly.Files.Tree
import FragmentAssembly.Registry.Add

namespace FragmentAssembly

/-- Why a fragment file is refused. -/
inductive LoadError where
  /-- The file cannot be read. -/
  | unreadable (path : String) (cause : FileError)
  /-- What it holds is no fragment. -/
  | refused (e : FragmentError)
deriving DecidableEq, Repr

/-- The wording of a refusal. -/
def LoadError.message : LoadError → String
  | unreadable path cause =>
    s!"Failure while trying to read fragment file {Text.Quoted.encode path}: {cause.message}"
  | refused e => e.message

/-- Reads a fragment file and registers what it holds.  The registry is the one after the
attempt, whether it succeeds or not. -/
def Registry.load (r : Registry) (t : FileTree) (path : String) :
    Logged LoadError Fragment × Registry :=
  match t.read path with
  | .error cause => (.ofExcept (.error (.unreadable path cause)), r)
  | .ok content =>
    let (added, r) := r.add (.text (Text.trimEnd content))
    (do Logged.log (.fileRead path); added.mapError .refused, r)

end FragmentAssembly
