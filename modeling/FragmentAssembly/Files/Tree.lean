/-
FragmentAssembly/Files/Tree.lean

A tree of files.  It is a list of places with what stands at each: a directory, a file
with its bytes, or a symbolic link with its target.  A place is the list of names that
leads to it from the root.  Relative paths begin at the working directory.

Finding the place of a path (`FileTree.place`) takes its pieces one by one and follows
links, at most `linkLimit` of them; neither a path (`pathLimit`) nor a name in it
(`nameLimit`) may be too long.  The causes for which it may fail are those of `FileError`.
-/
import FragmentAssembly.Files.Path

namespace FragmentAssembly

/-- What stands at a place. -/
inductive Node where
  | directory
  | file (content : ByteArray)
  | link (target : String)

/-- Whether it is a directory. -/
def Node.isDirectory : Node → Bool
  | directory => true
  | _ => false

/-- The names that lead from the root to a place. -/
abbrev Place := List String

/-- Why a file cannot be reached or read. -/
inductive FileError where
  /-- Nothing stands there. -/
  | notFound
  /-- A file stands where a directory is needed. -/
  | notDirectory
  /-- A directory stands where a file is needed. -/
  | isDirectory
  /-- No name, or no path, is that long. -/
  | nameTooLong
  /-- There are too many links on the way. -/
  | tooManyLinks
  /-- The path holds the character of number zero. -/
  | zeroInPath
  /-- The bytes of the file are no text. -/
  | notText
deriving DecidableEq, Repr

/-- The wording of a cause. -/
def FileError.message : FileError → String
  | notFound => "No such file or directory (os error 2)"
  | notDirectory => "Not a directory (os error 20)"
  | isDirectory => "Is a directory (os error 21)"
  | nameTooLong => "File name too long (os error 36)"
  | tooManyLinks => "Too many levels of symbolic links (os error 40)"
  | zeroInPath => "file name contained an unexpected NUL byte"
  | notText => "stream did not contain valid UTF-8"

/-- A tree of files, and the place at which relative paths begin. -/
structure FileTree where
  entries : List (Place × Node)
  workingDirectory : Place

namespace FileTree

/-! ### Places -/

/-- How many links may be followed on the way to one place. -/
def linkLimit : Nat := 40

/-- The longest name that can stand anywhere, in bytes. -/
def nameLimit : Nat := 255

/-- The longest path that can be looked up, in bytes. -/
def pathLimit : Nat := 4095

/-- What stands at a place.  The root is always a directory. -/
def node? (t : FileTree) : Place → Option Node
  | [] => some .directory
  | place => t.entries.lookup place

/-- Whether a directory stands at a place. -/
def isDirectory (t : FileTree) (place : Place) : Bool :=
  (t.node? place).any Node.isDirectory

/-- Where a path begins. -/
def origin (t : FileTree) (path : String) : Place :=
  if path.toList.head? = some '/' then [] else t.workingDirectory

/-- Takes pieces of a path one by one, beginning at a place.  A link is followed when
something comes after it, and at the end if `follow` says so.  At the last piece there may
be nothing: a file could be made there. -/
def descend (t : FileTree) (follow : Bool) :
    (links : Nat) → (here : Place) → (pieces : List String) → Except FileError Place
  | _, here, [] => .ok here
  | links, here, piece :: rest =>
    -- whatever comes next, even nothing after a slash, is looked up in a directory
    if !t.isDirectory here then .error .notDirectory
    else if piece = "" ∨ piece = "." then t.descend follow links here rest
    else if piece = ".." then t.descend follow links here.dropLast rest
    else
      match t.node? (here ++ [piece]) with
      | none =>
        if nameLimit < piece.utf8ByteSize then .error .nameTooLong
        else if rest.isEmpty then .ok (here ++ [piece])
        else .error .notFound
      | some (.link target) =>
        if rest.isEmpty && !follow then .ok (here ++ [piece])
        else if target.isEmpty then .error .notFound
        else
          match links with
          | 0 => .error .tooManyLinks
          | links + 1 =>
            -- the target is taken from where the link stands, and then the rest of the path
            let start := if target.toList.head? = some '/' then [] else here
            t.descend follow links start (Path.pieces target ++ rest)
      | some _ => t.descend follow links (here ++ [piece]) rest
termination_by links _ pieces => (links, pieces.length)

/-- The place of a path, links at its end followed or not. -/
def place (t : FileTree) (follow : Bool) (path : String) : Except FileError Place :=
  if path.toList.contains '\x00' then .error .zeroInPath
  else if path.isEmpty then .error .notFound
  else if pathLimit < path.utf8ByteSize then .error .nameTooLong
  else t.descend follow linkLimit (t.origin path) (Path.pieces path)

/-! ### Reading -/

/-- What stands at the place of a path, links followed. -/
def target (t : FileTree) (path : String) : Except FileError (Place × Node) := do
  let place ← t.place true path
  match t.node? place with
  | none => .error .notFound
  | some node => .ok (place, node)

/-- Whether a path leads to a file. -/
def isFile (t : FileTree) (path : String) : Bool :=
  match t.target path with
  | .ok (_, .file _) => true
  | _ => false

/-- The bytes of the file to which a path leads. -/
def readBytes (t : FileTree) (path : String) : Except FileError ByteArray := do
  match ← t.target path with
  | (_, .file content) => .ok content
  | (_, .directory) => .error .isDirectory
  | (_, .link _) => .error .tooManyLinks

/-- The text of the file to which a path leads. -/
def read (t : FileTree) (path : String) : Except FileError String := do
  let content ← t.readBytes path
  match String.fromUTF8? content with
  | some text => .ok text
  | none => .error .notText

/-- The names in a directory, in order. -/
def namesIn (t : FileTree) (directory : Place) : List String :=
  let names := t.entries.filterMap fun (place, _) =>
    if place.dropLast = directory then place.getLast? else none
  names.mergeSort (· ≤ ·)

/-! ### Making -/

/-- The tree with something put at a place. -/
def put (t : FileTree) (place : Place) (node : Node) : FileTree :=
  { t with entries := t.entries.filter (·.1 ≠ place) ++ [(place, node)] }

/-- A tree with nothing in its working directory.  The name of that directory has a slash
in it, so no path can spell it. -/
def empty : FileTree :=
  ⟨[(["/"], .directory)], ["/"]⟩

/-- Makes the directories of a path that are missing, beginning at a place, and tells
where the path leads. -/
def makeDirectories (t : FileTree) (here : Place) :
    (pieces : List String) → Except FileError (FileTree × Place)
  | [] => .ok (t, here)
  | piece :: rest => do
    let there ← t.descend true linkLimit here [piece]
    let t := if (t.node? there).isNone then t.put there .directory else t
    t.makeDirectories there rest

/-- Puts something at a path, and makes the directories above it.  A directory that is
there already stays, and a file is put where a link at the end of the path leads. -/
def write? (t : FileTree) (path : String) (node : Node) : Except FileError FileTree := do
  let pieces := Path.pieces path
  match node with
  | .directory => return (← t.makeDirectories (t.origin path) pieces).1
  | .file _ =>
    let (t, here) ← t.makeDirectories (t.origin path) pieces.dropLast
    return t.put (← t.descend true linkLimit here pieces.getLast?.toList) node
  | .link _ =>
    let (t, here) ← t.makeDirectories (t.origin path) pieces.dropLast
    return t.put (here ++ pieces.getLast?.toList) node

/-- The tree with something put at a path, if that can be. -/
def write (t : FileTree) (path : String) (node : Node) : FileTree :=
  (t.write? path node).toOption.getD t

end FileTree

end FragmentAssembly
