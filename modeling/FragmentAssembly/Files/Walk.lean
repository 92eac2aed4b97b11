/-
FragmentAssembly/Files/Walk.lean

Walking a directory.  The walk meets the directory itself, then everything in it by
name, each directory before what it holds.  Links are followed: a link to a directory
is walked under the path of the link, unless it leads back to a directory inside which
it stands, which is reported as a loop.

The walk of a tree ends although links may lead anywhere: a link never leads into a
directory that is being walked, so every link on the way down uses up a directory of
the tree, and between two links the way only goes down to longer places.
-/
import FragmentAssembly.Files.Tree
import FragmentAssembly.Measure

namespace FragmentAssembly

/-- Why a walk cannot go on. -/
inductive WalkError where
  /-- What stands at a path cannot be reached. -/
  | unreachable (path : String) (cause : FileError)
  /-- A link leads back to a directory inside which it stands. -/
  | loop (link ancestor : String)
deriving DecidableEq, Repr

/-- The wording of a failure. -/
def WalkError.message : WalkError → String
  | unreachable path cause => s!"IO error for operation on {path}: {cause.message}"
  | loop link ancestor => s!"File system loop found: {link} points to an ancestor {ancestor}"

/-- What a walk meets. -/
inductive Met where
  | directory (path : String)
  | file (path : String)
  | failure (e : WalkError)
deriving DecidableEq, Repr

namespace FileTree

/-- A directory that is being walked: where it is, and the path under which it was
reached. -/
structure Opened where
  place : Place
  path : String
deriving DecidableEq, Repr

/-- What a walk does with an entry. -/
inductive Entry where
  /-- It is a directory, and is walked. -/
  | enter (place : Place)
  /-- It is a file. -/
  | file
  /-- It cannot be walked. -/
  | failure (e : WalkError)
deriving DecidableEq, Repr

/-- The entry to which a link leads. -/
def followed (t : FileTree) (opened : List Opened) (path : String) : Entry :=
  match t.target path with
  | .error cause => .failure (.unreachable path cause)
  | .ok (place, .directory) =>
    match opened.find? (·.place = place) with
    | some ancestor => .failure (.loop path ancestor.path)
    | none => .enter place
  | .ok (_, .file _) => .file
  | .ok (_, .link _) => .failure (.unreachable path .tooManyLinks)

/-- The entry at a place, inside the directories that are being walked. -/
def entry (t : FileTree) (opened : List Opened) (path : String) (place : Place) : Entry :=
  match t.node? place with
  | some .directory => .enter place
  | some (.file _) => .file
  | some (.link _) => t.followed opened path
  | none => .failure (.unreachable path .notFound)

/-! ### What bounds a walk -/

/-- The directories of the tree, the root included. -/
def directories (t : FileTree) : List Place :=
  [] :: t.entries.filterMap fun (place, node) => if node.isDirectory then some place else none

/-- The length of the longest place. -/
def depth (t : FileTree) : Nat :=
  (t.entries.map fun e => e.1.length).foldr max 0

/-- How many directories are not among the given places. -/
def unopened (t : FileTree) (places : List Place) : Nat :=
  (t.directories.filter (· ∉ places)).length

theorem mem_of_lookup {entries : List (Place × Node)} {place : Place} {node : Node}
    (h : entries.lookup place = some node) : (place, node) ∈ entries := by
  induction entries with
  | nil => cases h
  | cons e entries ih =>
    obtain ⟨p, n⟩ := e
    rw [List.lookup_cons] at h
    split at h
    · rename_i heq
      cases h
      rw [beq_iff_eq] at heq
      rw [heq]
      exact List.mem_cons_self
    · exact List.mem_cons_of_mem _ (ih h)

/-- A place at which a directory stands is one of the directories. -/
theorem mem_directories {t : FileTree} {place : Place} (h : t.node? place = some .directory) :
    place ∈ t.directories := by
  unfold node? at h
  split at h
  · exact List.mem_cons_self
  · exact List.mem_cons_of_mem _ (List.mem_filterMap.2 ⟨_, mem_of_lookup h, by simp [Node.isDirectory]⟩)

theorem length_le_depth {t : FileTree} {place : Place} {node : Node}
    (h : (place, node) ∈ t.entries) : place.length ≤ t.depth := by
  unfold depth
  generalize t.entries = entries at h
  induction entries with
  | nil => cases h
  | cons e entries ih =>
    simp only [List.map_cons, List.foldr_cons]
    rcases List.mem_cons.1 h with rfl | h
    · exact Nat.le_max_left _ _
    · exact Nat.le_trans (ih h) (Nat.le_max_right _ _)

theorem unopened_cons_le (t : FileTree) (place : Place) (places : List Place) :
    t.unopened (place :: places) ≤ t.unopened places := by
  refine length_filter_le_of_imp fun p _ hp => ?_
  simp only [decide_eq_true_eq, List.mem_cons, not_or] at hp ⊢
  exact hp.2

/-- Opening a directory that was not open leaves fewer to open. -/
theorem unopened_cons_lt {t : FileTree} {place : Place} {places : List Place}
    (hdir : place ∈ t.directories) (hnew : place ∉ places) :
    t.unopened (place :: places) < t.unopened places := by
  refine length_filter_lt_of_imp hdir (by simpa using hnew) (by simp) fun p _ hp => ?_
  simp only [decide_eq_true_eq, List.mem_cons, not_or] at hp ⊢
  exact hp.2

/-- A link that is walked leads to a directory that is not open. -/
theorem of_followed_eq_enter {t : FileTree} {opened : List Opened} {path : String} {there : Place}
    (h : t.followed opened path = .enter there) :
    there ∈ t.directories ∧ there ∉ opened.map Opened.place := by
  unfold followed at h
  split at h
  · cases h
  · rename_i place htarget
    split at h
    · cases h
    · rename_i hnone
      cases h
      constructor
      · apply mem_directories
        unfold target at htarget
        cases hp : t.place true path with
        | error e => simp [hp, bind, Except.bind] at htarget
        | ok p =>
          simp only [hp, bind, Except.bind] at htarget
          split at htarget
          · cases htarget
          · rename_i node hn
            cases htarget
            exact hn
      · intro hmem
        obtain ⟨o, ho, rfl⟩ := List.mem_map.1 hmem
        simpa using List.find?_eq_none.1 hnone o ho
  · cases h
  · cases h

/-- What is walked next is either the place itself or a directory that is not open. -/
theorem of_entry_eq_enter {t : FileTree} {opened : List Opened} {path : String}
    {place there : Place} (h : t.entry opened path place = .enter there) :
    there = place ∨ there ∈ t.directories ∧ there ∉ opened.map Opened.place := by
  unfold entry at h
  split at h
  · cases h
    exact .inl rfl
  · cases h
  · exact .inr (of_followed_eq_enter h)
  · cases h

/-- A name in a directory makes a place no longer than the longest. -/
theorem length_lt_depth_of_mem_namesIn {t : FileTree} {place : Place} {name : String}
    (h : name ∈ t.namesIn place) : place.length < t.depth := by
  unfold namesIn at h
  rw [List.mem_mergeSort] at h
  obtain ⟨⟨p, n⟩, hmem, heq⟩ := List.mem_filterMap.1 h
  simp only at heq
  split at heq
  · rename_i hdrop
    have hlen := length_le_depth hmem
    have hne : p ≠ [] := by
      rintro rfl
      cases heq
    have hpos : 0 < p.length := List.length_pos_iff.2 hne
    have : place.length = p.length - 1 := by rw [← hdrop, List.length_dropLast]
    omega
  · cases heq

/-! ### The walk -/

/-- Walks a directory, and everything in it.  A directory under a path that is too long is
met, but cannot be opened. -/
def walkFrom (t : FileTree) (opened : List Opened) (path : String) (place : Place) : List Met :=
  .directory path ::
    if pathLimit < path.utf8ByteSize then [.failure (.unreachable path .nameTooLong)]
    else (t.namesIn place).attach.flatMap fun ⟨name, _⟩ =>
      let inside := Path.join path name
      let opened' := ⟨place, path⟩ :: opened
      match _h : t.entry opened' inside (place ++ [name]) with
      | .enter there => t.walkFrom opened' inside there
      | .file => [.file inside]
      | .failure e => [.failure e]
termination_by (t.unopened (place :: opened.map Opened.place), t.depth - place.length)
decreasing_by
  rename_i hname
  have hlt := length_lt_depth_of_mem_namesIn hname
  rcases of_entry_eq_enter _h with rfl | ⟨hdir, hnew⟩
  · -- a directory at its own place: nothing more is open than before, but the place is longer
    rcases Nat.lt_or_eq_of_le (t.unopened_cons_le (place ++ [name])
      (place :: opened.map Opened.place)) with h | h
    · exact .left _ _ h
    · simp only [List.map_cons]
      rw [h]
      refine .right _ ?_
      simp only [List.length_append, List.length_cons, List.length_nil]
      omega
  · -- a directory behind a link: it was not open, so one fewer is left
    exact .left _ _ (unopened_cons_lt hdir hnew)

/-- A walk is the directory and then what is met at each name in it. -/
theorem walkFrom_eq (t : FileTree) (opened : List Opened) (path : String) (place : Place) :
    t.walkFrom opened path place = .directory path ::
      if pathLimit < path.utf8ByteSize then [.failure (.unreachable path .nameTooLong)]
      else (t.namesIn place).flatMap fun name =>
        match t.entry (⟨place, path⟩ :: opened) (Path.join path name) (place ++ [name]) with
        | .enter there => t.walkFrom (⟨place, path⟩ :: opened) (Path.join path name) there
        | .file => [.file (Path.join path name)]
        | .failure e => [.failure e] := by
  rw [walkFrom]
  refine congrArg _ (ite_congr rfl (fun _ => rfl) fun _ => ?_)
  conv => rhs; rw [← List.attach_map_subtype_val (t.namesIn place), List.flatMap_map]
  refine congrArg (List.flatMap · _) (funext fun ⟨name, _⟩ => ?_)
  dsimp only
  split <;> simp only [*]

/-- Everything that a walk of a path meets, in order. -/
def walk (t : FileTree) (path : String) : List Met :=
  match t.place false path with
  | .error cause => [.failure (.unreachable path cause)]
  | .ok place =>
    match t.entry [] path place with
    | .enter there => t.walkFrom [] path there
    | .file => [.file path]
    | .failure e => [.failure e]

end FileTree

end FragmentAssembly
