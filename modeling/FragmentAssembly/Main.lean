/-
FragmentAssembly/Main.lean

The command line program.  It looks at the real files that a command may touch, makes a
tree of them, runs `Program.run` on that tree, and writes what comes out.  All decisions
are in `Program.run`; here is only reading and printing.
-/
import FragmentAssembly.Program

namespace FragmentAssembly.Main

/-- The tree that was read so far, and the directories whose inside was read. -/
structure Capture where
  tree : FileTree
  inside : List Place

/-- The real entry at a place. -/
def entryAt (place : Place) : IO.FS.DirEntry :=
  ⟨"/", "/".intercalate place⟩

/-- What sort of thing really stands at a place, if anything does. -/
def sortAt (place : Place) : IO (Option IO.FS.FileType) := do
  try
    return some (← (entryAt place).path.symlinkMetadata).type
  catch _ => return none

/-- Where the link at a place really leads.  A link that leads nowhere keeps leading to
nothing, and one that leads around in a circle is made to lead to itself. -/
def linkTarget (place : Place) : IO String := do
  try
    let _ ← (entryAt place).path.metadata
    return (← IO.FS.realPath (entryAt place).path).toString
  catch
    | .noFileOrDirectory .. => return "/\x00"
    | _ => return (entryAt place).path.toString

/-- Reads what stands along the pieces of a path, beginning at a place and following at most
so many links, and, if `deep` says so, everything in the directory to which it leads. -/
partial def capture (deep : Bool) (links : Nat) (c : Capture) (here : Place) :
    List String → IO Capture
  | [] => do
    if !deep || c.inside.contains here then return c
    let mut c := { c with inside := here :: c.inside }
    if (← sortAt here) == some .dir then
      for entry in ← (entryAt here).path.readDir do
        c ← capture deep FileTree.linkLimit c here [entry.fileName]
    return c
  | "" :: rest | "." :: rest => capture deep links c here rest
  | ".." :: rest => capture deep links c here.dropLast rest
  | piece :: rest => do
    let there := here ++ [piece]
    let put := fun (node : Node) => { c with tree := c.tree.put there node }
    match ← sortAt there with
    | none => return c
    | some .dir => capture deep links (put .directory) there rest
    | some .symlink => do
      let target ← linkTarget there
      if links = 0 then return put (.link target)
      capture deep (links - 1) (put (.link target)) [] (Path.pieces target ++ rest)
    | some .file => return put (.file (← IO.FS.readBinFile (entryAt there).path))
    | some .other => do
      if deep then return put .directory
      else return put (.file (← IO.FS.readBinFile (entryAt there).path))

/-- The tree of the files that a command may touch. -/
def filesOf (command : Command) : IO FileTree := do
  let here := (Path.pieces (← IO.currentDir).toString).filter (· ≠ "")
  let c ← capture false FileTree.linkLimit ⟨⟨[], here⟩, []⟩ [] here
  match command.build with
  | none => return c.tree
  | some arguments =>
    let c ← arguments.fragmentPaths.foldlM (fun c path =>
      capture true FileTree.linkLimit c (c.tree.origin path) (Path.pieces path)) c
    let path := arguments.operationFile
    let c ← capture false FileTree.linkLimit c (c.tree.origin path) (Path.pieces path)
    return c.tree

/-- Runs the program on the real files, command line and environment. -/
def run (line : List String) : IO UInt32 := do
  let files ← match Command.ofLine line with
    | .ok command => filesOf command
    | .error _ => pure ⟨[], []⟩
  let output := Program.run files line (← IO.getEnv "LOG_LEVEL")
  for event in output.events do
    IO.eprintln event.written
  IO.eprint output.stderr
  IO.print output.stdout
  return output.exitCode.toUInt32

end FragmentAssembly.Main

/-- The program. -/
def main (line : List String) : IO UInt32 :=
  FragmentAssembly.Main.run line
