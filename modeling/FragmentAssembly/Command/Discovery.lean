/-
FragmentAssembly/Command/Discovery.lean

Finding fragment files.  A given path that leads to a file is taken whatever its name;
any other is walked, and the files with one of the extensions are taken.  The paths come
out in the order of paths, and of paths with the same components only the first stays.
-/
import FragmentAssembly.Files.Walk
import FragmentAssembly.Log.Logged

namespace FragmentAssembly.Discovery

/-- Why a scan fails: the path that was given, and what went wrong below it. -/
structure ScanError where
  path : String
  cause : WalkError
deriving DecidableEq, Repr

/-- An extension without the dots at its beginning. -/
def bareExtension (extension : String) : String :=
  String.ofList (extension.toList.dropWhile (· == '.'))

/-- Whether the extension of a path is one of those wanted. -/
def isWanted (extensions : List String) (path : String) : Bool :=
  match Path.extension? path with
  | none => false
  | some extension => (extensions.map bareExtension).contains extension

/-- The wanted files among what a walk meets, up to its first failure. -/
def choose (extensions : List String) : List Met → Logged WalkError (List String)
  | [] => return []
  | .failure e :: _ => .ofExcept (.error e)
  | .directory path :: rest => do
    Logged.log (.skippedNonFile path)
    choose extensions rest
  | .file path :: rest =>
    if isWanted extensions path then do
      return path :: (← choose extensions rest)
    else do
      Logged.log (.skippedNonFragment path)
      choose extensions rest

/-- The files of one given path. -/
def filesOf (t : FileTree) (extensions : List String) (path : String) :
    Logged ScanError (List String) :=
  if t.isFile path then return [path]
  else (choose extensions (t.walk path)).mapError (⟨path, ·⟩)

/-- The files of all given paths, in the order in which they are found. -/
def filesOfAll (t : FileTree) (extensions : List String) :
    List String → Logged ScanError (List String)
  | [] => return []
  | path :: rest => do
    let files ← filesOf t extensions path
    return files ++ (← filesOfAll t extensions rest)

/-- The paths without those that have the same components as the one before them. -/
def dropRepeats : List String → List String
  | [] => []
  | path :: rest => path :: dropRepeats' path rest
where
  /-- Goes on after a path that stays. -/
  dropRepeats' (last : String) : List String → List String
    | [] => []
    | path :: rest =>
      if Path.Same path last then dropRepeats' last rest else path :: dropRepeats' path rest

/-- The files to load, each once, in the order of paths. -/
def find (t : FileTree) (extensions paths : List String) : Logged ScanError (List String) := do
  let files ← filesOfAll t extensions paths
  return dropRepeats (files.mergeSort Path.le)

end FragmentAssembly.Discovery
