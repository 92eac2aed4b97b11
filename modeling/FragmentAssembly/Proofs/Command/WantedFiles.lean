/-
FragmentAssembly/Proofs/Command/WantedFiles.lean

Which files a search finds.  A file is to be loaded (`ToLoad`) if it is given itself, or if it
stands below a given path that is no file and has a wanted extension.  The result of a search
holds just these files, each once and in the order of paths (`find_exact`).

Most of it is put together from what is known of its parts: a walk that does not fail meets all
files below a path (`FileTree.mem_walk_iff`), and order and repeats are settled once for all given
paths (`canonical_dropRepeats`).  What is left is the choice among the files that a walk meets
(`of_choose_eq_ok`), which looks at the wanted extensions without their leading dots only
(`bareExtension_eq_iff`).
-/
import FragmentAssembly.Proofs.Command.Build
import FragmentAssembly.Proofs.Files.Below
import FragmentAssembly.Proofs.Text.Runs

namespace FragmentAssembly.Discovery

open FragmentAssembly.Path (Before Same)

variable {t : FileTree} {extensions others paths found own : List String}
  {path p extension bare : String} {mets : List Met}

/-! ### Extensions -/

/-- That a text is another one without all the dots at its beginning. -/
def Undots (extension bare : String) : Prop :=
  (∃ dots, extension.toList = List.replicate dots '.' ++ bare.toList) ∧
    bare.toList.head? ≠ some '.'

/-- That two texts differ at most in the number of dots at their beginning. -/
def AlikeButDots (extension other : String) : Prop :=
  ∃ m n rest, extension.toList = List.replicate m '.' ++ rest ∧
    other.toList = List.replicate n '.' ++ rest

theorem dropWhile_replicate_append (n : Nat) (rest : List Char) :
    (List.replicate n '.' ++ rest).dropWhile (· == '.') = rest.dropWhile (· == '.') :=
  List.dropWhile_append_of_pos fun c hc => by simp [List.eq_of_mem_replicate hc]

theorem bareExtension_eq_iff : bareExtension extension = bare ↔ Undots extension bare := by
  constructor
  · rintro rfl
    refine ⟨⟨(extension.toList.takeWhile (· == '.')).length, ?_⟩, ?_⟩
    · rw [← Text.takeWhile_beq_eq_replicate, bareExtension, String.toList_ofList,
        List.takeWhile_append_dropWhile]
    · have hnot := List.head?_dropWhile_not (· == '.') extension.toList
      rw [bareExtension, String.toList_ofList]
      intro hdot
      rw [hdot] at hnot
      simp at hnot
  · rintro ⟨⟨dots, htext⟩, hhead⟩
    rw [bareExtension, htext, dropWhile_replicate_append]
    rcases hbare : bare.toList with - | ⟨c, cs⟩
    · exact (String.toList_eq_nil_iff.1 hbare).symm
    · rw [hbare] at hhead
      rw [List.dropWhile_cons_of_neg (by simpa using hhead), ← hbare, String.ofList_toList]

theorem AlikeButDots.bareExtension_eq {extension other : String}
    (h : AlikeButDots extension other) : bareExtension extension = bareExtension other := by
  obtain ⟨m, n, rest, hextension, hother⟩ := h
  rw [bareExtension, bareExtension, hextension, hother, dropWhile_replicate_append,
    dropWhile_replicate_append]

/-- That the extension of a path is one of the wanted ones without their leading dots. -/
def Wanted (extensions : List String) (p : String) : Prop :=
  ∃ extension ∈ extensions, ∃ bare, Undots extension bare ∧ Path.extension? p = some bare

theorem isWanted_iff : isWanted extensions p = true ↔ Wanted extensions p := by
  unfold isWanted Wanted
  simp only [← bareExtension_eq_iff]
  split
  · simp [*]
  · simp [*, eq_comm]

/-- That two lists hold the same extensions, however often and in whatever order, if the dots at
the beginning do not count. -/
structure SameButDots (extensions others : List String) : Prop where
  left : ∀ extension ∈ extensions, ∃ other ∈ others, AlikeButDots extension other
  right : ∀ other ∈ others, ∃ extension ∈ extensions, AlikeButDots extension other

theorem SameButDots.isWanted_eq (h : SameButDots extensions others) :
    isWanted others = isWanted extensions := by
  have hmem : ∀ bare, bare ∈ others.map bareExtension ↔ bare ∈ extensions.map bareExtension := by
    intro bare
    simp only [List.mem_map]
    constructor
    · rintro ⟨other, hother, rfl⟩
      obtain ⟨extension, hextension, halike⟩ := h.right other hother
      exact ⟨extension, hextension, halike.bareExtension_eq⟩
    · rintro ⟨extension, hextension, rfl⟩
      obtain ⟨other, hother, halike⟩ := h.left extension hextension
      exact ⟨other, hother, halike.bareExtension_eq.symm⟩
  funext p
  rw [isWanted, isWanted]
  split
  · rfl
  · rw [Bool.eq_iff_iff, List.contains_iff_mem, List.contains_iff_mem, hmem]

/-! ### The choice -/

/-- A choice that is made to the end comes from a walk that does not fail, and takes the wanted
files of it. -/
theorem of_choose_eq_ok (h : (choose extensions mets).outcome = .ok own) :
    (∀ e, .failure e ∉ mets) ∧ ∀ p, p ∈ own ↔ .file p ∈ mets ∧ isWanted extensions p = true := by
  induction mets generalizing own with
  | nil =>
    cases h
    simp
  | cons met rest ih =>
    cases met with
    | failure e => cases h
    | directory path =>
      rw [choose, Logged.outcome_bind_eq_ok_iff] at h
      obtain ⟨-, -, h⟩ := h
      obtain ⟨hok, hmem⟩ := ih h
      simp [hok, hmem]
    | file path =>
      rw [choose] at h
      split at h
      · rename_i hwanted
        obtain ⟨more, hmore, hown⟩ := Logged.outcome_bind_eq_ok_iff.1 h
        obtain ⟨hok, hmem⟩ := ih hmore
        obtain rfl : path :: more = own := Except.ok.inj hown
        refine ⟨by simp [hok], fun p => ?_⟩
        rw [List.mem_cons, List.mem_cons, hmem, Met.file.injEq]
        constructor
        · rintro (rfl | ⟨hp, hw⟩)
          · exact ⟨.inl rfl, hwanted⟩
          · exact ⟨.inr hp, hw⟩
        · rintro ⟨rfl | hp, hw⟩
          · exact .inl rfl
          · exact .inr ⟨hp, hw⟩
      · rename_i hnot
        rw [Logged.outcome_bind_eq_ok_iff] at h
        obtain ⟨-, -, h⟩ := h
        obtain ⟨hok, hmem⟩ := ih h
        refine ⟨by simp [hok], fun p => ?_⟩
        rw [List.mem_cons, hmem, Met.file.injEq]
        constructor
        · exact fun ⟨hp, hw⟩ => ⟨.inr hp, hw⟩
        · rintro ⟨rfl | hp, hw⟩
          · exact absurd hw hnot
          · exact ⟨hp, hw⟩

theorem choose_congr (h : isWanted others = isWanted extensions) (mets : List Met) :
    choose others mets = choose extensions mets := by
  induction mets with
  | nil => rfl
  | cons met rest ih =>
    cases met with
    | failure e => rfl
    | directory path => rw [choose, choose, ih]
    | file path => rw [choose, choose, h, ih]

/-! ### The search -/

/-- What a search takes for the files to be loaded: those that are given, whatever their extension,
and the wanted ones that stand below a given path that is no file. -/
def ToLoad (t : FileTree) (extensions paths : List String) (p : String) : Prop :=
  (p ∈ paths ∧ t.isFile p = true) ∨
    ∃ path ∈ paths, t.isFile path = false ∧ (∃ place content, t.Below path p place (.file content)) ∧
      Wanted extensions p

theorem mem_filesOf_iff (h : (filesOf t extensions path).outcome = .ok own) :
    p ∈ own ↔ (p = path ∧ t.isFile path = true) ∨
      t.isFile path = false ∧ (∃ place content, t.Below path p place (.file content)) ∧
        Wanted extensions p := by
  unfold filesOf at h
  split at h
  · rename_i hfile
    obtain rfl : [path] = own := Except.ok.inj h
    simp [hfile]
  · rename_i hfile
    obtain ⟨hok, hmem⟩ := of_choose_eq_ok (Logged.outcome_mapError_eq_ok_iff.1 h)
    simp [hfile, hmem, FileTree.mem_walk_iff hok, isWanted_iff]

theorem mem_filesOfAll_iff_toLoad (h : (filesOfAll t extensions paths).outcome = .ok found) :
    p ∈ found ↔ ToLoad t extensions paths p := by
  rw [mem_filesOfAll_iff h]
  constructor
  · rintro ⟨path, hpath, own, hown, hp⟩
    rcases (mem_filesOf_iff hown).1 hp with ⟨rfl, hfile⟩ | hbelow
    · exact .inl ⟨hpath, hfile⟩
    · exact .inr ⟨path, hpath, hbelow⟩
  · have hall := exists_filesOfAll_iff.1 ⟨found, h⟩
    rintro (⟨hpath, hfile⟩ | ⟨path, hpath, hbelow⟩)
    · obtain ⟨own, hown⟩ := hall p hpath
      exact ⟨p, hpath, own, hown, (mem_filesOf_iff hown).2 (.inl ⟨rfl, hfile⟩)⟩
    · obtain ⟨own, hown⟩ := hall path hpath
      exact ⟨path, hpath, own, hown, (mem_filesOf_iff hown).2 (.inr hbelow)⟩

theorem filesOfAll_congr (h : isWanted others = isWanted extensions) (paths : List String) :
    filesOfAll t others paths = filesOfAll t extensions paths := by
  induction paths with
  | nil => rfl
  | cons path paths ih => rw [filesOfAll, filesOfAll, filesOf, filesOf, choose_congr h, ih]

/-- The search looks at the wanted extensions only without the dots at their beginning, and not at
how they are ordered or how often each is given. -/
theorem find_of_sameButDots (h : SameButDots extensions others) :
    find t others paths = find t extensions paths := by
  rw [find, find, filesOfAll_congr h.isWanted_eq]

/-- A search that succeeds finds the files to be loaded, but for the spelling, and each once in the
order of paths.  It does not matter how many dots the wanted extensions begin with, and neither
the order of the extensions or of the given paths nor how often each is given. -/
theorem find_exact (t : FileTree) (extensions paths : List String) :
    (∀ files, (find t extensions paths).outcome = .ok files →
        files.Pairwise Before ∧
          (∀ p ∈ files, ToLoad t extensions paths p) ∧
          (∀ p, (∃ q ∈ files, Same p q) ↔ ∃ q, Same p q ∧ ToLoad t extensions paths q) ∧
          ∀ more, (∀ path, path ∈ more ↔ path ∈ paths) →
            ∃ others, (find t extensions more).outcome = .ok others ∧
              others.map Path.components = files.map Path.components) ∧
      ∀ others, SameButDots extensions others → find t others paths = find t extensions paths := by
  refine ⟨fun files hfiles => ?_, fun others hothers => find_of_sameButDots hothers⟩
  obtain ⟨found, hfound, rfl⟩ := find_eq_ok_iff.1 hfiles
  have hcanonical := canonical_dropRepeats found
  have hload : ∀ p, p ∈ found ↔ ToLoad t extensions paths p := fun p =>
    mem_filesOfAll_iff_toLoad hfound
  refine ⟨hcanonical.increasing, fun p hp => (hload p).1 (hcanonical.mem_found p hp), fun p => ?_,
    fun more hmore => ?_⟩
  · constructor
    · rintro ⟨q, hq, hsame⟩
      exact ⟨q, hsame, (hload q).1 (hcanonical.mem_found q hq)⟩
    · rintro ⟨q, hsame, hq⟩
      obtain ⟨kept, hkept, hsame'⟩ := hcanonical.complete q ((hload q).2 hq)
      exact ⟨kept, hkept, Eq.trans hsame hsame'⟩
  · obtain ⟨others, hothers, hmem⟩ := exists_filesOfAll_of_mem_iff hmore hfound
    refine ⟨_, find_eq_ok_iff.2 ⟨others, hothers, rfl⟩, ?_⟩
    refine (canonical_dropRepeats others).map_components_eq hcanonical fun x => ?_
    simp only [List.mem_map, hmem]

open FragmentAssembly.Program in
/-- A directory, a file in it that is given once more under another spelling, and another file.  If
the extension of the files is wanted, the one in the directory is found both ways and kept once,
also if the extension has dots before it; if it is not, the given files are found all the same. -/
theorem find_exact_shelf :
    let found := ["d/a.gql", "z.gql"]
    let given := ["d//a.gql", "z.gql"]
    let paths := shelved.fragmentPaths
    let again := ["z.gql", "d", "d//a.gql", "z.gql"]
    (find shelf ["graphql", "gql"] paths).outcome = .ok found ∧ found.Pairwise Before ∧
      ToLoad shelf ["graphql", "gql"] paths "d/a.gql" ∧
      ¬ToLoad shelf ["graphql", "gql"] paths "op" ∧
      find shelf ["..gql", ".graphql", "gql"] paths = find shelf ["graphql", "gql"] paths ∧
      (find shelf ["..txt"] paths).outcome = .ok given ∧ given.Pairwise Before ∧
      ToLoad shelf ["..txt"] paths "d//a.gql" ∧
      ∃ others, (find shelf ["..txt"] again).outcome = .ok others ∧
        others.map Path.components = given.map Path.components := by
  intro found given paths again
  have hgiven : (find shelf ["..txt"] paths).outcome = .ok given := by
    refine find_eq_ok_iff.2 ⟨_, @filesOfAll_shelf_of_choose _ [] rfl, ?_⟩
    rw [List.mergeSort_of_pairwise (by decide)]
    decide
  have hagain : ∀ path, path ∈ again ↔ path ∈ paths := by
    intro path
    simp only [again, paths, shelved, List.mem_cons, List.not_mem_nil]
    tauto
  have hdots : SameButDots ["graphql", "gql"] ["..gql", ".graphql", "gql"] := by
    constructor
    · simp only [List.forall_mem_cons]
      exact ⟨⟨".graphql", by decide, 0, 1, _, rfl, rfl⟩, ⟨"gql", by decide, 0, 0, _, rfl, rfl⟩,
        by simp⟩
    · simp only [List.forall_mem_cons]
      exact ⟨⟨"gql", by decide, 0, 2, _, rfl, rfl⟩, ⟨"graphql", by decide, 0, 1, _, rfl, rfl⟩,
        ⟨"gql", by decide, 0, 0, _, rfl, rfl⟩, by simp⟩
  obtain ⟨hexact, hspelled⟩ := find_exact shelf ["graphql", "gql"] paths
  obtain ⟨hfound, hload, hall, -⟩ := hexact found find_shelf
  obtain ⟨hgiven', hload', -, hpaths⟩ := (find_exact shelf ["..txt"] paths).1 given hgiven
  refine ⟨find_shelf, hfound, hload _ (by decide), fun hop => ?_, hspelled _ hdots, hgiven, hgiven',
    hload' _ (by decide), hpaths again hagain⟩
  exact absurd ((hall "op").2 ⟨"op", rfl, hop⟩) (by decide)

end FragmentAssembly.Discovery
