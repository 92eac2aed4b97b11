/-
FragmentAssembly/Proofs/Files/Below.lean

What a walk meets.  `FileTree.Below` says what stands at or below a path, links followed, without
walking: at the path itself stands what it leads to, and in a directory that is reached stands
every name that it holds.  No list of open directories, no order and no failure is in it.

A walk meets no file but those (`below_of_mem_walk`), and one that does not fail meets them all
(`mem_walk_of_below`).  Where the one takes an entry, the other sees what the entry stands for
(`StandsFor`); the two agree unless the walk fails there (`entry_of_standsFor`).
-/
import FragmentAssembly.Files.Walk
import FragmentAssembly.Proofs.Files.Spelling

namespace FragmentAssembly.FileTree

open FragmentAssembly.Path (join)

/-- What an entry is under a path: what stands at its place, or what the path leads to if that is a
link. -/
inductive StandsFor (t : FileTree) (path : String) (place : Place) : Place → Node → Prop
  | itself {node : Node} (hnode : t.node? place = some node)
      (hlink : ∀ target, node ≠ .link target) : StandsFor t path place place node
  | followed {target : String} {there : Place} {node : Node}
      (hnode : t.node? place = some (.link target)) (htarget : t.target path = .ok (there, node)) :
      StandsFor t path place there node

/-- What is found at or below a path, links followed: the paths, each with the place to which it
leads and what stands there. -/
inductive Below (t : FileTree) (root : String) : String → Place → Node → Prop
  /-- The path itself. -/
  | self {place : Place} {node : Node} (h : t.target root = .ok (place, node)) :
      Below t root root place node
  /-- Something in a directory. -/
  | inside {path name : String} {place there : Place} {node : Node}
      (h : Below t root path place .directory) (hname : name ∈ t.namesIn place)
      (hstands : t.StandsFor (join path name) (place ++ [name]) there node) :
      Below t root (join path name) there node

/-- That a walk can go on to its end. -/
def Walkable (t : FileTree) (root : String) : Prop :=
  ∀ e, Met.failure e ∉ t.walk root

variable {t : FileTree} {opened : List Opened} {root path p : String} {place there : Place}
  {node : Node} {met : Met}

/-! ### Entries -/

theorem standsFor_of_enter (h : t.entry opened path place = .enter there) :
    t.StandsFor path place there .directory := by
  unfold entry at h
  split at h
  · rename_i hnode
    cases h
    exact .itself hnode fun _ => Node.noConfusion
  · cases h
  · rename_i target hnode
    unfold followed at h
    split at h
    · cases h
    · rename_i htarget
      split at h
      · cases h
      · cases h
        exact .followed hnode htarget
    · cases h
    · cases h
  · cases h

theorem standsFor_of_file (h : t.entry opened path place = .file) :
    ∃ there content, t.StandsFor path place there (.file content) := by
  unfold entry at h
  split at h
  · cases h
  · rename_i content hnode
    exact ⟨place, content, .itself hnode fun _ => Node.noConfusion⟩
  · rename_i target hnode
    unfold followed at h
    split at h
    · cases h
    · split at h
      · cases h
      · cases h
    · rename_i there content htarget
      exact ⟨there, content, .followed hnode htarget⟩
    · cases h
  · cases h

/-- Unless the walk fails at an entry, it takes the entry for what it stands for. -/
theorem entry_of_standsFor (h : t.StandsFor path place there node)
    (hok : ∀ e, t.entry opened path place ≠ .failure e) :
    (node = .directory ∧ t.entry opened path place = .enter there) ∨
      (∃ content, node = .file content) ∧ t.entry opened path place = .file := by
  cases h with
  | itself hnode hlink =>
    cases node with
    | directory => exact .inl ⟨rfl, by rw [entry, hnode]⟩
    | file content => exact .inr ⟨⟨content, rfl⟩, by rw [entry, hnode]⟩
    | link target => exact absurd rfl (hlink target)
  | @followed target _ _ hnode htarget =>
    have hentry : t.entry opened path place = t.followed opened path := by rw [entry, hnode]
    rw [hentry] at hok ⊢
    rw [followed, htarget] at hok ⊢
    cases node with
    | directory =>
      dsimp only at hok ⊢
      split at hok
      · exact absurd rfl (hok _)
      · exact .inl ⟨rfl, rfl⟩
    | file content => exact .inr ⟨⟨content, rfl⟩, rfl⟩
    | link target => exact absurd rfl (hok _)

/-! ### Walks -/

/-- What a walk meets from an entry on. -/
def metAt (t : FileTree) (opened : List Opened) (path : String) (place : Place) : List Met :=
  match t.entry opened path place with
  | .enter there => t.walkFrom opened path there
  | .file => [.file path]
  | .failure e => [.failure e]

theorem mem_metAt_iff :
    met ∈ t.metAt opened path place ↔
      (∃ there, t.entry opened path place = .enter there ∧ met ∈ t.walkFrom opened path there) ∨
        (t.entry opened path place = .file ∧ met = .file path) ∨
          ∃ e, t.entry opened path place = .failure e ∧ met = .failure e := by
  rw [metAt]
  rcases t.entry opened path place with there | - | e <;> simp

theorem mem_walkFrom_iff :
    met ∈ t.walkFrom opened path place ↔
      met = .directory path ∨
        (pathLimit < path.utf8ByteSize ∧ met = .failure (.unreachable path .nameTooLong)) ∨
          (¬pathLimit < path.utf8ByteSize ∧ ∃ name ∈ t.namesIn place,
            met ∈ t.metAt (⟨place, path⟩ :: opened) (join path name) (place ++ [name])) := by
  rw [walkFrom_eq, List.mem_cons]
  refine or_congr_right ?_
  split
  · simp [*]
  · simp only [*, List.mem_flatMap, not_false_eq_true, true_and, false_and, false_or]
    rfl

/-- From a directory that stands below the path, a walk meets no file but those below the path. -/
theorem below_of_mem_walkFrom (h : t.Below root path place .directory)
    (hp : .file p ∈ t.walkFrom opened path place) :
    ∃ there content, t.Below root p there (.file content) := by
  fun_induction walkFrom t opened path place with
  | case1 opened path place ih =>
    rw [← walkFrom, mem_walkFrom_iff] at hp
    rcases hp with heq | ⟨-, heq⟩ | ⟨-, name, hname, hp⟩
    · cases heq
    · cases heq
    · rcases mem_metAt_iff.1 hp with ⟨there, hentry, hp⟩ | ⟨hentry, heq⟩ | ⟨e, -, heq⟩
      · exact ih name hname there hentry (.inside h hname (standsFor_of_enter hentry)) hp
      · cases heq
        obtain ⟨there, content, hstands⟩ := standsFor_of_file hentry
        exact ⟨there, content, .inside h hname hstands⟩
      · cases heq

/-! ### The beginning of a walk -/

/-- A path leads to the same with links at its end followed, unless it leads to a link. -/
theorem place_follow (h : t.place false path = .ok place)
    (hlink : ∀ target, t.node? place ≠ some (.link target)) : t.place true path = .ok place := by
  unfold FileTree.place at h ⊢
  split at h
  · cases h
  · rename_i hzero
    split at h
    · cases h
    · rename_i hempty
      split at h
      · cases h
      · rename_i hlong
        rw [if_neg hzero, if_neg hempty, if_neg hlong]
        exact descends_iff.1 (descends_of_descend h fun _ => hlink)

theorem standsFor_iff_target (h : t.place false path = .ok place) :
    t.StandsFor path place there node ↔ t.target path = .ok (there, node) := by
  constructor
  · rintro (⟨hnode, hlink⟩ | ⟨-, htarget⟩)
    · refine target_eq_ok_iff.2 ⟨place_follow h fun target heq => ?_, hnode⟩
      rw [hnode] at heq
      exact hlink target (Option.some.inj heq)
    · exact htarget
  · intro htarget
    obtain ⟨hplace, hnode⟩ := target_eq_ok_iff.1 htarget
    by_cases hlink : ∃ target, t.node? place = some (.link target)
    · obtain ⟨target, htarget'⟩ := hlink
      exact .followed htarget' htarget
    · rw [not_exists] at hlink
      obtain rfl : there = place := Except.ok.inj (hplace.symm.trans (place_follow h hlink))
      exact .itself hnode fun target heq => hlink target (by rw [hnode, heq])

theorem walk_of_place (h : t.place false root = .ok place) : t.walk root = t.metAt [] root place := by
  rw [walk, h]
  rfl

/-- A walk meets no file but those at or below the path. -/
theorem below_of_mem_walk (hp : .file p ∈ t.walk root) :
    ∃ place content, t.Below root p place (.file content) := by
  rcases hplace : t.place false root with cause | place
  · rw [walk, hplace] at hp
    simp at hp
  · rw [walk_of_place hplace] at hp
    rcases mem_metAt_iff.1 hp with ⟨there, hentry, hp⟩ | ⟨hentry, heq⟩ | ⟨e, -, heq⟩
    · refine below_of_mem_walkFrom (.self ?_) hp
      exact (standsFor_iff_target hplace).1 (standsFor_of_enter hentry)
    · cases heq
      obtain ⟨there, content, hstands⟩ := standsFor_of_file hentry
      exact ⟨there, content, .self ((standsFor_iff_target hplace).1 hstands)⟩
    · cases heq

/-! ### Walks that do not fail -/

/-- That the walk goes on from here. -/
theorem exists_of_standsFor (hok : t.Walkable root) (hsub : t.metAt opened path place ⊆ t.walk root)
    (h : t.StandsFor path place there node) :
    (node = .directory ∧ t.walkFrom opened path there ⊆ t.walk root) ∨
      (∃ content, node = .file content) ∧ .file path ∈ t.walk root := by
  have hgoes : ∀ e, t.entry opened path place ≠ .failure e := fun e he =>
    hok e (hsub (mem_metAt_iff.2 (.inr (.inr ⟨e, he, rfl⟩))))
  rcases entry_of_standsFor h hgoes with ⟨rfl, hentry⟩ | ⟨hfile, hentry⟩
  · exact .inl ⟨rfl, fun met hmet => hsub (mem_metAt_iff.2 (.inl ⟨there, hentry, hmet⟩))⟩
  · exact .inr ⟨hfile, hsub (mem_metAt_iff.2 (.inr (.inl ⟨hentry, rfl⟩)))⟩

/-- A walk that does not fail comes to everything at or below the path. -/
theorem Below.walked (h : t.Below root p place node) (hok : t.Walkable root) :
    (node = .directory ∧ ∃ opened, t.walkFrom opened p place ⊆ t.walk root) ∨
      (∃ content, node = .file content) ∧ .file p ∈ t.walk root := by
  induction h with
  | @self place node h =>
    rcases hplace : t.place false root with cause | start
    · refine absurd ?_ (hok (.unreachable root cause))
      rw [walk, hplace]
      simp
    · rcases exists_of_standsFor hok (fun met hmet => by rwa [walk_of_place hplace])
        ((standsFor_iff_target hplace).2 h) with ⟨rfl, hsub⟩ | hfile
      · exact .inl ⟨rfl, [], hsub⟩
      · exact .inr hfile
  | @inside path name place there node h hname hstands ih =>
    rcases ih with ⟨-, opened, hsub⟩ | ⟨⟨content, heq⟩, -⟩
    · have hlong : ¬pathLimit < path.utf8ByteSize := fun hlong =>
        hok _ (hsub (mem_walkFrom_iff.2 (.inr (.inl ⟨hlong, rfl⟩))))
      have hinside : t.metAt (⟨place, path⟩ :: opened) (join path name) (place ++ [name]) ⊆
          t.walk root := fun met hmet =>
        hsub (mem_walkFrom_iff.2 (.inr (.inr ⟨hlong, name, hname, hmet⟩)))
      rcases exists_of_standsFor hok hinside hstands with ⟨rfl, hsub⟩ | hfile
      · exact .inl ⟨rfl, _, hsub⟩
      · exact .inr hfile
    · cases heq

/-- A walk that does not fail meets the files at or below the path, and no others. -/
theorem mem_walk_iff (hok : t.Walkable root) :
    .file p ∈ t.walk root ↔ ∃ place content, t.Below root p place (.file content) := by
  refine ⟨below_of_mem_walk, ?_⟩
  rintro ⟨place, content, h⟩
  rcases h.walked hok with ⟨heq, -⟩ | ⟨-, hp⟩
  · cases heq
  · exact hp

end FragmentAssembly.FileTree
