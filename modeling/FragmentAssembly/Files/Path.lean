/-
FragmentAssembly/Files/Path.lean

Paths as texts.  A path is read as a list of components: a leading slash, a leading
dot, steps up, and names.  Repeated slashes, dots further in and a slash at the end
make no component, so `d//a/./b/` and `d/a/b` have the same ones.

Paths are put in order component by component (`Path.le`), not character by character:
`d/a/b` comes before `d/a.gql`.
-/
import FragmentAssembly.Text.Split

namespace FragmentAssembly.Path

/-! ### Components -/

/-- One component of a path. -/
inductive Component where
  /-- The slash at the beginning. -/
  | root
  /-- The dot at the beginning of a path without a leading slash. -/
  | here
  /-- Two dots. -/
  | up
  /-- The name of something in a directory. -/
  | name (text : String)
deriving DecidableEq, Repr

namespace Component

/-- What components are compared by: first the sort, in the order in which they are listed,
then the text of a name. -/
def key : Component → Nat × String
  | root => (0, "")
  | here => (1, "")
  | up => (2, "")
  | name text => (3, text)

/-- The order of components. -/
def compare (a b : Component) : Ordering :=
  (Ord.compare a.key.1 b.key.1).then (Ord.compare a.key.2 b.key.2)

/-- The component that a piece between slashes makes, after the first piece. -/
def ofPiece? : String → Option Component
  | "" => none
  | "." => none
  | ".." => some up
  | text => some (name text)

end Component

/-- The pieces of a path between its slashes. -/
def pieces (path : String) : List String :=
  Text.splitOn '/' path

/-- The components of a path. -/
def components (path : String) : List Component :=
  match pieces path with
  | [] => []
  | first :: rest =>
    let later := rest.filterMap Component.ofPiece?
    match first with
    | "" => if rest.isEmpty then [] else .root :: later
    | "." => .here :: later
    | first => (Component.ofPiece? first).toList ++ later

/-- Two paths with the same components. -/
def Same (a b : String) : Prop :=
  components a = components b

instance (a b : String) : Decidable (Same a b) :=
  inferInstanceAs (Decidable (components a = components b))

/-! ### Order -/

/-- The order of paths. -/
def compare (a b : String) : Ordering :=
  List.compareLex Component.compare (components a) (components b)

/-- Whether a path comes before another one, or has the same components. -/
def le (a b : String) : Bool :=
  (compare a b).isLE

/-! ### Parts and wholes -/

/-- The path of something in the directory of a path. -/
def join (path name : String) : String :=
  if path.toList.getLast? = some '/' then path ++ name else path ++ "/" ++ name

/-- The part of a name after its last dot, if there is something before that dot. -/
def extensionOfName? (name : String) : Option String :=
  let after := name.toList.reverse.takeWhile (· != '.')
  match name.toList.reverse.dropWhile (· != '.') with
  | [] => none
  | [_] => none
  | _ :: _ :: _ => some (String.ofList after.reverse)

/-- The extension of the last name of a path. -/
def extension? (path : String) : Option String :=
  match (components path).getLast? with
  | some (.name text) => extensionOfName? text
  | _ => none

end FragmentAssembly.Path
