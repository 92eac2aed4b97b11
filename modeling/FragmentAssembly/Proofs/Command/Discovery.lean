/-
FragmentAssembly/Proofs/Command/Discovery.lean

What a search for fragment files finds.  The files below all given paths are put in order, and of
files with the same components only the first stays.  Once they are in order such files are
neighbours, so none is left twice and none is lost (`canonical_dropRepeats`).

The result is therefore fixed, but for the spelling, by which files there are, and not by the
order in which they came up or by how often.  Where the spellings of a file are read alike
(`ReadsAlike`), the given paths in any order lead to the same texts in the same order
(`exists_find_of_mem_iff`).
-/
import FragmentAssembly.Command.Discovery
import FragmentAssembly.Proofs.Files.Order
import FragmentAssembly.Proofs.Files.Spelling

namespace FragmentAssembly.Discovery

open FragmentAssembly.Path (Before Same)

/-! ### Dropping repeats -/

/-- A list of paths as one that holds each path once, in order. -/
structure Canonical (found files : List String) : Prop where
  increasing : files.Pairwise Before
  mem_found : ∀ p ∈ files, p ∈ found
  complete : ∀ p ∈ found, ∃ q ∈ files, Same p q

variable {found others files : List String} {last p : String}

open dropRepeats (dropRepeats')

theorem mem_of_mem_dropRepeats' (h : p ∈ dropRepeats' last files) : p ∈ files := by
  induction files generalizing last with
  | nil => exact h
  | cons path rest ih =>
    rw [dropRepeats'] at h
    split at h
    · exact List.mem_cons_of_mem _ (ih h)
    · rcases List.mem_cons.1 h with rfl | h
      · exact List.mem_cons_self
      · exact List.mem_cons_of_mem _ (ih h)

/-- What is dropped has the same components as a path that stays. -/
theorem exists_same_dropRepeats' (h : p ∈ last :: files) :
    ∃ q ∈ last :: dropRepeats' last files, Same p q := by
  induction files generalizing last with
  | nil => exact ⟨p, h, rfl⟩
  | cons path rest ih =>
    rw [dropRepeats']
    split
    · rename_i hsame
      -- the path goes, and the one before it stands for both
      rcases List.mem_cons.1 h with rfl | h
      · exact ⟨p, List.mem_cons_self, rfl⟩
      · rcases List.mem_cons.1 h with rfl | h
        · exact ⟨last, List.mem_cons_self, hsame⟩
        · exact ih (List.mem_cons_of_mem _ h)
    · rcases List.mem_cons.1 h with rfl | h
      · exact ⟨p, List.mem_cons_self, rfl⟩
      · obtain ⟨q, hq, hpq⟩ := ih h
        exact ⟨q, List.mem_cons_of_mem _ hq, hpq⟩

/-- In a list in order, the paths that stay increase strictly. -/
theorem increasing_dropRepeats' (h : (last :: files).Pairwise fun p q => Path.le p q = true) :
    (last :: dropRepeats' last files).Pairwise Before := by
  induction files generalizing last with
  | nil => exact List.pairwise_singleton _ _
  | cons path rest ih =>
    obtain ⟨hlast, hrest⟩ := List.pairwise_cons.1 h
    rw [dropRepeats']
    split
    · refine ih (List.pairwise_cons.2 ⟨fun q hq => ?_, hrest.of_cons⟩)
      exact hlast q (List.mem_cons_of_mem _ hq)
    · rename_i hnot
      have hbefore : Before last path :=
        (Path.le_iff.1 (hlast path List.mem_cons_self)).resolve_right fun hsame => hnot hsame.symm
      have hincreasing := ih hrest
      refine List.pairwise_cons.2 ⟨fun q hq => ?_, hincreasing⟩
      rcases List.mem_cons.1 hq with rfl | hq
      · exact hbefore
      · exact Std.TransCmp.lt_trans hbefore ((List.pairwise_cons.1 hincreasing).1 q hq)

/-- Put in order and without repeats, the files found are all there, each once. -/
theorem canonical_dropRepeats (found : List String) :
    Canonical found (dropRepeats (found.mergeSort Path.le)) := by
  have hsorted := List.pairwise_mergeSort Path.le_trans Path.le_total found
  have hmem : ∀ p, p ∈ found.mergeSort Path.le ↔ p ∈ found := fun p => List.mem_mergeSort
  rcases hsort : found.mergeSort Path.le with - | ⟨first, rest⟩
  · rw [hsort] at hmem
    refine ⟨List.Pairwise.nil, fun p hp => ?_, fun p hp => ?_⟩
    · cases hp
    · cases (hmem p).2 hp
  · rw [hsort] at hsorted hmem
    refine ⟨increasing_dropRepeats' hsorted, fun p hp => (hmem p).1 ?_, fun p hp => ?_⟩
    · rcases List.mem_cons.1 hp with rfl | hp
      · exact List.mem_cons_self
      · exact List.mem_cons_of_mem _ (mem_of_mem_dropRepeats' hp)
    · exact exists_same_dropRepeats' ((hmem p).2 hp)

theorem Canonical.mem_components_iff (h : Canonical found files) (x : List Path.Component) :
    x ∈ files.map Path.components ↔ x ∈ found.map Path.components := by
  constructor
  · intro hx
    obtain ⟨p, hp, rfl⟩ := List.mem_map.1 hx
    exact List.mem_map_of_mem (h.mem_found p hp)
  · intro hx
    obtain ⟨p, hp, rfl⟩ := List.mem_map.1 hx
    obtain ⟨q, hq, hsame⟩ := h.complete p hp
    rw [show Path.components p = Path.components q from hsame]
    exact List.mem_map_of_mem hq

/-- There is one such list for the same paths, but for the spelling. -/
theorem Canonical.map_components_eq {files' : List String} (h : Canonical found files)
    (h' : Canonical others files')
    (hsame : ∀ x, x ∈ found.map Path.components ↔ x ∈ others.map Path.components) :
    files.map Path.components = files'.map Path.components := by
  refine Path.map_components_eq h.increasing h'.increasing fun x => ?_
  rw [h.mem_components_iff, h'.mem_components_iff, hsame]

/-! ### Given paths -/

variable {t : FileTree} {extensions paths more : List String} {path : String}

theorem filesOfAll_cons_eq_ok_iff :
    (filesOfAll t extensions (path :: paths)).outcome = .ok found ↔
      ∃ own rest, (filesOf t extensions path).outcome = .ok own ∧
        (filesOfAll t extensions paths).outcome = .ok rest ∧ found = own ++ rest := by
  rw [filesOfAll]
  simp only [Logged.outcome_bind_eq_ok_iff, Logged.outcome_pure, Except.ok.injEq]
  constructor
  · rintro ⟨own, hown, rest, hrest, rfl⟩
    exact ⟨own, rest, hown, hrest, rfl⟩
  · rintro ⟨own, rest, hown, hrest, rfl⟩
    exact ⟨own, hown, rest, hrest, rfl⟩

/-- The given paths can be scanned just when each of them can. -/
theorem exists_filesOfAll_iff :
    (∃ found, (filesOfAll t extensions paths).outcome = .ok found) ↔
      ∀ path ∈ paths, ∃ own, (filesOf t extensions path).outcome = .ok own := by
  induction paths with
  | nil => exact ⟨fun _ path h => absurd h List.not_mem_nil, fun _ => ⟨[], rfl⟩⟩
  | cons path paths ih =>
    simp only [filesOfAll_cons_eq_ok_iff, List.forall_mem_cons]
    constructor
    · rintro ⟨_, own, rest, hown, hrest, -⟩
      exact ⟨⟨own, hown⟩, ih.1 ⟨rest, hrest⟩⟩
    · rintro ⟨⟨own, hown⟩, hall⟩
      obtain ⟨rest, hrest⟩ := ih.2 hall
      exact ⟨own ++ rest, own, rest, hown, hrest, rfl⟩

/-- What is found under the given paths is what is found under each of them. -/
theorem mem_filesOfAll_iff (h : (filesOfAll t extensions paths).outcome = .ok found) :
    p ∈ found ↔ ∃ path ∈ paths, ∃ own, (filesOf t extensions path).outcome = .ok own ∧ p ∈ own := by
  induction paths generalizing found with
  | nil =>
    cases h
    simp
  | cons path paths ih =>
    obtain ⟨own, rest, hown, hrest, rfl⟩ := filesOfAll_cons_eq_ok_iff.1 h
    rw [List.mem_append, ih hrest, List.exists_mem_cons_iff]
    refine or_congr_left ⟨fun hp => ⟨own, hown, hp⟩, ?_⟩
    rintro ⟨own', hown', hp⟩
    cases hown.symm.trans hown'
    exact hp

/-- Which given paths there are decides what is found, not their order, nor how often each is
given. -/
theorem exists_filesOfAll_of_mem_iff (hpaths : ∀ path, path ∈ more ↔ path ∈ paths)
    (h : (filesOfAll t extensions paths).outcome = .ok found) :
    ∃ others, (filesOfAll t extensions more).outcome = .ok others ∧
      ∀ p, p ∈ others ↔ p ∈ found := by
  have hall := exists_filesOfAll_iff.1 ⟨found, h⟩
  obtain ⟨others, hothers⟩ :=
    exists_filesOfAll_iff.2 fun path hpath => hall path ((hpaths path).1 hpath)
  refine ⟨others, hothers, fun p => ?_⟩
  simp only [mem_filesOfAll_iff hothers, mem_filesOfAll_iff h, hpaths]

theorem find_eq_ok_iff :
    (find t extensions paths).outcome = .ok files ↔
      ∃ found, (filesOfAll t extensions paths).outcome = .ok found ∧
        files = dropRepeats (found.mergeSort Path.le) := by
  rw [find, Logged.outcome_bind_eq_ok_iff]
  simp only [Logged.outcome_pure, Except.ok.injEq, eq_comm]

/-! ### Spellings -/

theorem map_eq_map_of_map_eq {α β γ : Type} {f : α → β} {g : α → γ} {xs ys : List α}
    (h : xs.map f = ys.map f) (hg : ∀ x ∈ xs, ∀ y ∈ ys, f x = f y → g x = g y) :
    xs.map g = ys.map g := by
  induction xs generalizing ys with
  | nil =>
    obtain rfl := List.map_eq_nil_iff.1 h.symm
    rfl
  | cons x xs ih =>
    obtain ⟨y, ys, rfl, hy, hys⟩ := List.map_eq_cons_iff.1 h.symm
    rw [List.map_cons, List.map_cons, hg x List.mem_cons_self y List.mem_cons_self hy.symm,
      ih hys.symm fun x hx y hy => hg x (List.mem_cons_of_mem _ hx) y (List.mem_cons_of_mem _ hy)]

/-- That the files found below some paths are read alike under all their spellings. -/
def ReadsAlike (t : FileTree) (extensions paths : List String) : Prop :=
  ∀ found, (filesOfAll t extensions paths).outcome = .ok found →
    ∀ p ∈ found, ∀ q ∈ found, Same p q → t.read p = t.read q

/-- Files that can be reached under the path under which they were found are read alike. -/
theorem readsAlike_of_isFile
    (h : ∀ found, (filesOfAll t extensions paths).outcome = .ok found →
      ∀ p ∈ found, t.isFile p = true) : ReadsAlike t extensions paths :=
  fun found hfound p hp q hq hsame =>
    FileTree.read_eq_of_same hsame (h found hfound p hp) (h found hfound q hq)

theorem ReadsAlike.of_mem_iff (h : ReadsAlike t extensions paths)
    (hpaths : ∀ path, path ∈ more ↔ path ∈ paths) : ReadsAlike t extensions more := by
  intro others hothers p hp q hq hsame
  obtain ⟨found, hfound, hmem⟩ := exists_filesOfAll_of_mem_iff (fun path => (hpaths path).symm)
    hothers
  exact h found hfound p ((hmem p).2 hp) q ((hmem q).2 hq) hsame

/-- How the given paths are ordered, and how often each is given, changes at most the spelling of
the files that are found, and so not what is read at each position. -/
theorem exists_find_of_mem_iff (hpaths : ∀ path, path ∈ more ↔ path ∈ paths)
    (halike : ReadsAlike t extensions paths) (h : (find t extensions paths).outcome = .ok files) :
    ∃ others, (find t extensions more).outcome = .ok others ∧
      others.map t.read = files.map t.read := by
  obtain ⟨found, hfound, rfl⟩ := find_eq_ok_iff.1 h
  obtain ⟨found', hfound', hmem⟩ := exists_filesOfAll_of_mem_iff hpaths hfound
  have hcanonical := canonical_dropRepeats found
  have hcanonical' := canonical_dropRepeats found'
  refine ⟨_, find_eq_ok_iff.2 ⟨found', hfound', rfl⟩, ?_⟩
  have hsame := hcanonical'.map_components_eq hcanonical fun x => by simp only [List.mem_map, hmem]
  refine map_eq_map_of_map_eq hsame fun p hp q hq hpq => ?_
  exact halike found hfound p ((hmem p).1 (hcanonical'.mem_found p hp)) q
    (hcanonical.mem_found q hq) hpq

end FragmentAssembly.Discovery
