/-
FragmentAssembly/Proofs/Command/Loading.lean

Loading fragment files.  The files that are found are loaded in order, and loading one puts the
fragment that stands in it (`FileTree.fragment?`) over an earlier one of its name
(`Build.loadAll_eq_ok_iff`).  So a name goes to the last file that declares it.  The files that
are found increase, so that is the greatest one (`Build.greatest_of_lookup?`).
-/
import FragmentAssembly.Command.Build
import FragmentAssembly.Proofs.Command.Discovery
import FragmentAssembly.Proofs.Registry.History

namespace FragmentAssembly

variable {t : FileTree}

/-! ### Loading -/

namespace FileTree

variable {path : String} {f : Fragment}

/-- The fragment that stands in a file, if the file can be read and its text declares a name. -/
def fragment? (t : FileTree) (path : String) : Option Fragment :=
  match t.read path with
  | .error _ => none
  | .ok content =>
    (Header.name? (Text.trimEnd content)).map fun name => .define name (Text.trimEnd content)

theorem fragment?_eq_some_iff :
    t.fragment? path = some f ↔ ∃ content name, t.read path = .ok content ∧
      Header.name? (Text.trimEnd content) = some name ∧
        f = .define name (Text.trimEnd content) := by
  rw [fragment?]
  rcases t.read path with e | content
  · simp
  · simp only [Option.map_eq_some_iff, Except.ok.injEq, exists_and_left, exists_eq_left']
    simp only [eq_comm]

theorem fragment?_congr {other : String} (h : t.read path = t.read other) :
    t.fragment? path = t.fragment? other := by
  rw [fragment?, fragment?, h]

/-- That a fragment stands in the greatest of some files that declare its name. -/
def Greatest (t : FileTree) (files : List String) (f : Fragment) : Prop :=
  ∃ p ∈ files, t.fragment? p = some f ∧
    ∀ q ∈ files, ∀ g, t.fragment? q = some g → g.name = f.name → Path.le q p = true

end FileTree

namespace Registry

variable {r : Registry} {path : String} {f : Fragment}

theorem fragment?_of_load (h : (r.load t path).1.outcome = .ok f) : t.fragment? path = some f := by
  obtain ⟨content, hread, hadd⟩ := addText_of_load h
  obtain ⟨hname, hf⟩ := outcome_addText_eq_ok_iff.1 hadd
  exact FileTree.fragment?_eq_some_iff.2 ⟨content, f.name, hread, hname, hf⟩

theorem load_of_fragment? (h : t.fragment? path = some f) :
    (r.load t path).1.outcome = .ok f ∧ (r.load t path).2 = r.register f := by
  obtain ⟨content, name, hread, hname, rfl⟩ := FileTree.fragment?_eq_some_iff.1 h
  have hadd : r.add (.text (Text.trimEnd content)) = r.define name (Text.trimEnd content) :=
    addText_of_declared hname
  rw [load, hread]
  simp only [hadd]
  exact ⟨rfl, rfl⟩

end Registry

namespace Build

variable {r s : Registry} {files : List String}

theorem loadAll_cons_eq_ok_iff {path : String} :
    (loadAll t r (path :: files)).outcome = .ok s ↔
      ∃ f, t.fragment? path = some f ∧ (loadAll t (r.register f) files).outcome = .ok s := by
  rw [loadAll]
  simp only [Logged.outcome_bind_eq_ok_iff, Logged.outcome_mapError_eq_ok_iff, Logged.outcome_log]
  constructor
  · rintro ⟨f, hload, -, -, hrest⟩
    have hf := Registry.fragment?_of_load hload
    rw [(Registry.load_of_fragment? hf).2] at hrest
    exact ⟨f, hf, hrest⟩
  · rintro ⟨f, hf, hrest⟩
    obtain ⟨hload, hregistry⟩ := Registry.load_of_fragment? (r := r) hf
    rw [← hregistry] at hrest
    exact ⟨f, hload, (), trivial, hrest⟩

/-- Files can be loaded just when a fragment stands in each of them; these are registered one
after another. -/
theorem loadAll_eq_ok_iff :
    (loadAll t r files).outcome = .ok s ↔
      ∃ fs : List Fragment, files.map t.fragment? = fs.map some ∧ s = fs.foldl .register r := by
  induction files generalizing r with
  | nil =>
    rw [loadAll]
    constructor
    · intro h
      cases h
      exact ⟨[], rfl, rfl⟩
    · rintro ⟨fs, hfs, rfl⟩
      obtain rfl := List.map_eq_nil_iff.1 hfs.symm
      rfl
  | cons path files ih =>
    rw [loadAll_cons_eq_ok_iff]
    simp only [ih]
    constructor
    · rintro ⟨f, hf, fs, hfs, rfl⟩
      exact ⟨f :: fs, by rw [List.map_cons, List.map_cons, hf, hfs], rfl⟩
    · rintro ⟨fs, hfs, rfl⟩
      obtain ⟨f, rest, rfl, hf, hrest⟩ := List.map_eq_cons_iff.1 hfs.symm
      exact ⟨f, hf.symm, rest, hrest.symm, rfl⟩

/-- Loading files makes registries that actions lead to. -/
theorem reachable_of_loadAll (hr : r.Reachable) (h : (loadAll t r files).outcome = .ok s) :
    s.Reachable := by
  induction files generalizing r with
  | nil =>
    rw [loadAll] at h
    cases h
    exact hr
  | cons path files ih =>
    obtain ⟨f, hf, hrest⟩ := loadAll_cons_eq_ok_iff.1 h
    have honest : (Action.load t path).Honest := trivial
    have hstep := hr.perform honest
    rw [Registry.perform_load, (Registry.load_of_fragment? hf).2] at hstep
    exact ih hstep hrest

/-! ### The last file that declares a name -/

/-- Of several fragments of one name, the last one is registered. -/
theorem lookup?_foldl_register (r : Registry) (fs : List Fragment) (name : String) :
    (fs.foldl .register r).lookup? name =
      (fs.reverse.find? (·.name = name)).or (r.lookup? name) := by
  induction fs generalizing r with
  | nil => rfl
  | cons f fs ih =>
    rw [List.foldl_cons, ih, List.reverse_cons, List.find?_append, Option.or_assoc,
      Registry.lookup?_register_eq_or, List.find?_singleton, Option.filter_some]

/-- Files that increase are loaded so that every name goes to the greatest file. -/
theorem greatest_of_lookup? {fs : List Fragment} {name : String} {f : Fragment}
    (hincreasing : files.Pairwise Path.Before) (hfs : files.map t.fragment? = fs.map some)
    (h : (fs.foldl .register .empty : Registry).lookup? name = some f) : t.Greatest files f := by
  rw [lookup?_foldl_register, Registry.lookup?_empty, Option.or_none,
    List.find?_eq_some_iff_append] at h
  obtain ⟨hname, later, earlier, hreverse, hlater⟩ := h
  rw [decide_eq_true_eq] at hname
  rw [List.reverse_eq_append_iff, List.reverse_cons, List.append_assoc, List.singleton_append]
    at hreverse
  -- the files split where the fragment stands, and no later one declares its name
  rw [hreverse, List.map_append, List.map_cons, List.map_eq_append_iff] at hfs
  obtain ⟨before, rest, rfl, -, hrest⟩ := hfs
  obtain ⟨p, after, rfl, hp, hafter⟩ := List.map_eq_cons_iff.1 hrest
  obtain ⟨-, -, hbefore⟩ := List.pairwise_append.1 hincreasing
  refine ⟨p, List.mem_append_right _ List.mem_cons_self, hp, fun q hq g hg hgname => ?_⟩
  rcases List.mem_append.1 hq with hq | hq
  · exact Path.le_iff.2 (.inl (hbefore q hq p List.mem_cons_self))
  rcases List.mem_cons.1 hq with rfl | hq
  · exact Path.le_iff.2 (.inr rfl)
  · have hmem : some g ∈ later.reverse.map some := by
      rw [← hafter, ← hg]
      exact List.mem_map_of_mem hq
    obtain ⟨g', hg', heq⟩ := List.mem_map.1 hmem
    obtain rfl := Option.some.inj heq
    have hnot := hlater g' (List.mem_reverse.1 hg')
    rw [hgname, hname] at hnot
    simp at hnot

end Build

end FragmentAssembly
