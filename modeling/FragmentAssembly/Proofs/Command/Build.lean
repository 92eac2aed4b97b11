/-
FragmentAssembly/Proofs/Command/Build.lean

What a build is made of.  A successful build can be read off the files that are found, each of
them once: its document defines every name that is spread in it, and the definition is the one in
the greatest file that declares the name (`Build.resolved_of_operation`).

How the fragment paths are ordered, and how often each is given, shows nowhere in this: it changes
at most under which of its spellings a file is loaded.  Where the spellings of a file are read
alike, neither the success of a build nor what it writes depends on it
(`Program.build_ignores_path_order`).
-/
import FragmentAssembly.Program
import FragmentAssembly.Proofs.Command.Loading
import FragmentAssembly.Proofs.Operation.SelfContained

namespace FragmentAssembly

variable {t : FileTree}

/-- What a successful build is made of: the files that are found, each once, the operation, and
the fragments of its document. -/
structure Build.Resolved (t : FileTree) (found files : List String) (op : Operation)
    (fs : List Fragment) : Prop where
  canonical : Discovery.Canonical found files
  document : op.document = FragmentAssembly.document op.definition fs
  /-- Every name that is spread in the document is defined in it. -/
  closed : ∀ name ∈ Spread.ofText op.document, name ∈ fs.map Fragment.name
  /-- Every fragment comes from the greatest file that declares its name. -/
  greatest : ∀ f ∈ fs, t.Greatest files f

namespace Build

variable {a : BuildArguments} {r s : Registry}

theorem registry_eq_ok_iff :
    (registry t a).outcome = .ok s ↔
      ∃ (files : List String) (fs : List Fragment),
        (Discovery.find t a.extensions a.fragmentPaths).outcome = .ok files ∧
          files.map t.fragment? = fs.map some ∧ s = fs.foldl .register .empty := by
  rw [registry]
  simp only [Logged.outcome_bind_eq_ok_iff, Logged.outcome_mapError_eq_ok_iff, Logged.outcome_log,
    loadAll_eq_ok_iff]
  constructor
  · rintro ⟨files, hfiles, -, -, fs, hfs, rfl⟩
    exact ⟨files, fs, hfiles, hfs, rfl⟩
  · rintro ⟨files, fs, hfiles, hfs, rfl⟩
    exact ⟨files, hfiles, (), trivial, fs, hfs, rfl⟩

theorem operation_eq_ok_iff {op : Operation} :
    (operation t a).outcome = .ok op ↔
      ∃ r content, (registry t a).outcome = .ok r ∧ t.read a.operationFile = .ok content ∧
        (r.assemble a.kind (operationInput a content)).outcome = .ok op := by
  have hread : ∀ content, ((t.read a.operationFile).mapError
      (BuildError.readOperation a.operationFile)) = .ok content ↔
        t.read a.operationFile = .ok content := fun content =>
    Logged.outcome_mapError_eq_ok_iff (x := Logged.ofExcept (t.read a.operationFile))
  rw [operation]
  simp only [Logged.outcome_bind_eq_ok_iff, Logged.outcome_mapError_eq_ok_iff,
    Logged.outcome_ofExcept, hread, exists_and_left]

theorem run_eq_ok_iff {out : String} :
    (run t a).outcome = .ok out ↔
      ∃ op, (operation t a).outcome = .ok op ∧ out = render a.json op.document := by
  rw [run, Logged.outcome_bind_eq_ok_iff]
  simp only [Logged.outcome_pure, Except.ok.injEq, eq_comm]

/-- A successful build is resolved. -/
theorem resolved_of_operation {op : Operation} (h : (operation t a).outcome = .ok op) :
    ∃ found files fs, (Discovery.filesOfAll t a.extensions a.fragmentPaths).outcome = .ok found ∧
      (Discovery.find t a.extensions a.fragmentPaths).outcome = .ok files ∧
      Resolved t found files op fs := by
  obtain ⟨r, content, hr, -, hop⟩ := operation_eq_ok_iff.1 h
  obtain ⟨files, loaded, hfind, hloaded, rfl⟩ := registry_eq_ok_iff.1 hr
  obtain ⟨found, hfound, rfl⟩ := Discovery.find_eq_ok_iff.1 hfind
  obtain ⟨fs, hfs, rfl⟩ := Registry.exists_of_assemble hop
  have hreachable := reachable_of_loadAll .empty (loadAll_eq_ok_iff.2 ⟨loaded, hloaded, rfl⟩)
  have hcovers := Registry.covers_of_ok hfs
  have hcanonical := Discovery.canonical_dropRepeats found
  refine ⟨found, _, fs, hfound, hfind, hcanonical, rfl, fun name hname => ?_, fun f hf => ?_⟩
  · -- a document spreads what its operation and its fragments spread, and a cover has all of it
    rw [ofText_document fun f hf => hreachable.tracked f.name f (hcovers.registered f hf),
      List.mem_append, List.mem_flatMap] at hname
    exact (hcovers.mem_names_iff_asked name).2 hname
  · exact greatest_of_lookup? hcanonical.increasing hloaded (hcovers.registered f hf)

/-! ### Other orders of the given paths -/

variable {paths : List String}

/-- A registry that is loaded from the given paths is loaded from them in any order. -/
theorem registry_of_mem_iff (hpaths : ∀ path, path ∈ paths ↔ path ∈ a.fragmentPaths)
    (halike : Discovery.ReadsAlike t a.extensions a.fragmentPaths)
    (h : (registry t a).outcome = .ok r) :
    (registry t { a with fragmentPaths := paths }).outcome = .ok r := by
  obtain ⟨files, fs, hfind, hfs, rfl⟩ := registry_eq_ok_iff.1 h
  obtain ⟨others, hothers, hread⟩ := Discovery.exists_find_of_mem_iff hpaths halike hfind
  refine registry_eq_ok_iff.2 ⟨others, fs, hothers, ?_, rfl⟩
  rw [← hfs]
  exact Discovery.map_eq_map_of_map_eq hread fun p _ q _ hpq => FileTree.fragment?_congr hpq

theorem run_of_mem_iff (hpaths : ∀ path, path ∈ paths ↔ path ∈ a.fragmentPaths)
    (halike : Discovery.ReadsAlike t a.extensions a.fragmentPaths) {out : String}
    (h : (run t a).outcome = .ok out) :
    (run t { a with fragmentPaths := paths }).outcome = .ok out := by
  obtain ⟨op, hop, rfl⟩ := run_eq_ok_iff.1 h
  obtain ⟨r, content, hr, hread, hassemble⟩ := operation_eq_ok_iff.1 hop
  exact run_eq_ok_iff.2 ⟨op, operation_eq_ok_iff.2
    ⟨r, content, registry_of_mem_iff hpaths halike hr, hread, hassemble⟩, rfl⟩

/-- Whether a build succeeds, and with what, does not depend on how the given paths are ordered
and how often each is given. -/
theorem run_eq_ok_iff_of_mem_iff (hpaths : ∀ path, path ∈ paths ↔ path ∈ a.fragmentPaths)
    (halike : Discovery.ReadsAlike t a.extensions a.fragmentPaths) {out : String} :
    (run t { a with fragmentPaths := paths }).outcome = .ok out ↔ (run t a).outcome = .ok out := by
  refine ⟨fun h => ?_, run_of_mem_iff hpaths halike⟩
  exact run_of_mem_iff (a := { a with fragmentPaths := paths }) (fun path => (hpaths path).symm)
    (halike.of_mem_iff hpaths) h

end Build

namespace Program

variable {line other : List String} {verbose : Bool} {a : BuildArguments} {paths : List String}

theorem run_build_of_ok (setting : Option String) {out : String}
    (hline : Command.ofLine line = .ok ⟨verbose, some a⟩)
    (h : (Build.run t a).outcome = .ok out) :
    (run t line setting).exitCode = 0 ∧ (run t line setting).stdout = out ++ "\n" := by
  rw [run, hline]
  simp only [execute, h, and_self]

theorem run_build_of_error (setting : Option String) {e : BuildError}
    (hline : Command.ofLine line = .ok ⟨verbose, some a⟩)
    (h : (Build.run t a).outcome = .error e) :
    (run t line setting).exitCode = 1 ∧ (run t line setting).stdout = "" := by
  rw [run, hline]
  simp only [execute, h, and_self]

/-- Command lines that differ in nothing but the order of the fragment paths, and in how often
each is given, both succeed or both fail, and write the same document.  It is made of files that
are each loaded once, and each of its fragments is the one in the greatest file that declares its
name. -/
theorem build_ignores_path_order (setting : Option String)
    (hline : Command.ofLine line = .ok ⟨verbose, some a⟩)
    (hother : Command.ofLine other = .ok ⟨verbose, some { a with fragmentPaths := paths }⟩)
    (hpaths : ∀ path, path ∈ paths ↔ path ∈ a.fragmentPaths)
    (halike : Discovery.ReadsAlike t a.extensions a.fragmentPaths) :
    (run t other setting).exitCode = (run t line setting).exitCode ∧
      (run t other setting).stdout = (run t line setting).stdout ∧
      ((run t line setting).exitCode = 0 → ∃ found files op fs,
        (Discovery.filesOfAll t a.extensions a.fragmentPaths).outcome = .ok found ∧
          (Discovery.find t a.extensions a.fragmentPaths).outcome = .ok files ∧
          (Build.operation t a).outcome = .ok op ∧ Build.Resolved t found files op fs ∧
          (run t line setting).stdout = Build.render a.json op.document ++ "\n") := by
  have hsame : ∀ out, (Build.run t { a with fragmentPaths := paths }).outcome = .ok out ↔
      (Build.run t a).outcome = .ok out := fun _ => Build.run_eq_ok_iff_of_mem_iff hpaths halike
  rcases hrun : (Build.run t a).outcome with e | out
  · rcases hrun' : (Build.run t { a with fragmentPaths := paths }).outcome with e' | out
    · obtain ⟨hcode, hout⟩ := run_build_of_error setting hline hrun
      obtain ⟨hcode', hout'⟩ := run_build_of_error setting hother hrun'
      refine ⟨hcode'.trans hcode.symm, hout'.trans hout.symm, fun hzero => ?_⟩
      cases hcode.symm.trans hzero
    · cases hrun.symm.trans ((hsame out).1 hrun')
  · obtain ⟨hcode, hout⟩ := run_build_of_ok setting hline hrun
    obtain ⟨hcode', hout'⟩ := run_build_of_ok setting hother ((hsame out).2 hrun)
    refine ⟨hcode'.trans hcode.symm, hout'.trans hout.symm, fun _ => ?_⟩
    obtain ⟨op, hop, rfl⟩ := Build.run_eq_ok_iff.1 hrun
    obtain ⟨found, files, fs, hfound, hfiles, hresolved⟩ := Build.resolved_of_operation hop
    exact ⟨found, files, op, fs, hfound, hfiles, hop, hresolved, hout⟩

/-! ### A directory, and a file in it that is given once more -/

section Shelf

open FileTree

/-- Two files that declare the same name, one of them in a directory, and an operation. -/
def shelf : FileTree :=
  ⟨[(["w"], .directory), (["w", "d"], .directory),
    (["w", "d", "a.gql"], .file "fragment A on T { x }".toUTF8),
    (["w", "z.gql"], .file "fragment A on T { y }".toUTF8),
    (["w", "op"], .file "{ ...A }".toUTF8)], ["w"]⟩

/-- The directory, the file in it under another spelling, and the other file. -/
def shelved : BuildArguments :=
  ⟨Command.defaultExtensions, ["d", "d//a.gql", "z.gql"], false, .query, none, [], "op"⟩

theorem place_shelf (follow : Bool) :
    shelf.place follow "d" = .ok ["w", "d"] ∧
      shelf.place follow "d/a.gql" = .ok ["w", "d", "a.gql"] ∧
      shelf.place follow "d//a.gql" = .ok ["w", "d", "a.gql"] ∧
      shelf.place follow "z.gql" = .ok ["w", "z.gql"] ∧
      shelf.place follow "op" = .ok ["w", "op"] := by
  have hroot : shelf.isDirectory ["w"] = true := by decide
  have hinner : shelf.isDirectory ["w", "d"] = true := by decide
  have hd : shelf.node? ["w", "d"] = some .directory := rfl
  have ha : shelf.node? ["w", "d", "a.gql"] = some (.file "fragment A on T { x }".toUTF8) := rfl
  have hz : shelf.node? ["w", "z.gql"] = some (.file "fragment A on T { y }".toUTF8) := rfl
  have hop : shelf.node? ["w", "op"] = some (.file "{ ...A }".toUTF8) := rfl
  refine ⟨?_, ?_, ?_, ?_, ?_⟩
  · show shelf.descend follow linkLimit ["w"] ["d"] = _
    simp [descend, hroot, hd]
  · show shelf.descend follow linkLimit ["w"] ["d", "a.gql"] = _
    simp [descend, hroot, hinner, hd, ha]
  · show shelf.descend follow linkLimit ["w"] ["d", "", "a.gql"] = _
    simp [descend, hroot, hinner, hd, ha]
  · show shelf.descend follow linkLimit ["w"] ["z.gql"] = _
    simp [descend, hroot, hz]
  · show shelf.descend follow linkLimit ["w"] ["op"] = _
    simp [descend, hroot, hop]

theorem target_shelf :
    shelf.target "d/a.gql" = .ok (["w", "d", "a.gql"], .file "fragment A on T { x }".toUTF8) ∧
      shelf.target "d//a.gql" = .ok (["w", "d", "a.gql"], .file "fragment A on T { x }".toUTF8) ∧
      shelf.target "z.gql" = .ok (["w", "z.gql"], .file "fragment A on T { y }".toUTF8) ∧
      shelf.target "op" = .ok (["w", "op"], .file "{ ...A }".toUTF8) := by
  obtain ⟨-, hwalked, hgiven, hother, hop⟩ := place_shelf true
  exact ⟨target_eq_ok_iff.2 ⟨hwalked, rfl⟩, target_eq_ok_iff.2 ⟨hgiven, rfl⟩,
    target_eq_ok_iff.2 ⟨hother, rfl⟩, target_eq_ok_iff.2 ⟨hop, rfl⟩⟩

theorem walk_shelf : shelf.walk "d" = [.directory "d", .file "d/a.gql"] := by
  have hnames : shelf.namesIn ["w", "d"] = ["a.gql"] := by simp [namesIn, shelf]
  have hentry : shelf.entry [] "d" ["w", "d"] = .enter ["w", "d"] := rfl
  have hjoin : Path.join "d" "a.gql" = "d/a.gql" := by decide
  have hinside : shelf.entry [⟨["w", "d"], "d"⟩] "d/a.gql" (["w", "d"] ++ ["a.gql"]) = .file := rfl
  rw [walk, (place_shelf false).1]
  simp only [hentry]
  rw [walkFrom_eq, hnames, if_neg (by decide), List.flatMap_singleton, hjoin, hinside]

/-- Of the directory the search takes the file in it if its extension is wanted, and the other two
files it takes in any case. -/
theorem filesOfAll_shelf_of_choose {extensions own : List String}
    (h : (Discovery.choose extensions [.directory "d", .file "d/a.gql"]).outcome = .ok own) :
    (Discovery.filesOfAll shelf extensions shelved.fragmentPaths).outcome =
      .ok (own ++ ["d//a.gql", "z.gql"]) := by
  obtain ⟨-, hgiven, hother, -⟩ := target_shelf
  have hdirectory : shelf.isFile "d" = false := by
    rw [isFile, target_eq_ok_iff.2 ⟨(place_shelf true).1, rfl⟩]
  have hwalked : (Discovery.filesOf shelf extensions "d").outcome = .ok own := by
    rw [Discovery.filesOf, hdirectory, walk_shelf]
    exact Logged.outcome_mapError_eq_ok_iff.2 h
  have halone : ∀ path, shelf.isFile path = true →
      (Discovery.filesOf shelf extensions path).outcome = .ok [path] := by
    intro path hpath
    rw [Discovery.filesOf, hpath]
    rfl
  refine Discovery.filesOfAll_cons_eq_ok_iff.2 ⟨_, _, hwalked, ?_, rfl⟩
  refine Discovery.filesOfAll_cons_eq_ok_iff.2 ⟨_, _, halone _ (isFile_of_target hgiven), ?_, rfl⟩
  exact Discovery.filesOfAll_cons_eq_ok_iff.2 ⟨_, [], halone _ (isFile_of_target hother), rfl, rfl⟩

theorem filesOfAll_shelf :
    (Discovery.filesOfAll shelf shelved.extensions shelved.fragmentPaths).outcome =
      .ok ["d/a.gql", "d//a.gql", "z.gql"] :=
  @filesOfAll_shelf_of_choose _ ["d/a.gql"] rfl

theorem readsAlike_shelf :
    Discovery.ReadsAlike shelf shelved.extensions shelved.fragmentPaths := by
  obtain ⟨hwalked, hgiven, hother, -⟩ := target_shelf
  refine Discovery.readsAlike_of_isFile fun found hfound => ?_
  cases hfound.symm.trans filesOfAll_shelf
  simp [isFile_of_target hwalked, isFile_of_target hgiven, isFile_of_target hother]

theorem find_shelf :
    (Discovery.find shelf shelved.extensions shelved.fragmentPaths).outcome =
      .ok ["d/a.gql", "z.gql"] := by
  refine Discovery.find_eq_ok_iff.2 ⟨_, filesOfAll_shelf, ?_⟩
  rw [List.mergeSort_of_pairwise (by decide)]
  decide

theorem fragment?_shelf :
    shelf.fragment? "d/a.gql" = some ⟨"A", "fragment A on T { x }", []⟩ ∧
      shelf.fragment? "z.gql" = some ⟨"A", "fragment A on T { y }", []⟩ := by
  obtain ⟨hwalked, -, hother, -⟩ := target_shelf
  constructor
  · refine fragment?_eq_some_iff.2 ⟨_, "A", read_of_target hwalked, ?_, ?_⟩
    · rw [Header.name?_eq_first?]
      decide
    · rw [Fragment.define, Spread.ofText_eq_all]
      decide
  · refine fragment?_eq_some_iff.2 ⟨_, "A", read_of_target hother, ?_, ?_⟩
    · rw [Header.name?_eq_first?]
      decide
    · rw [Fragment.define, Spread.ofText_eq_all]
      decide

theorem run_shelf :
    (Build.run shelf shelved).outcome = .ok "{ ...A }\nfragment A on T { y }" := by
  have hinput : Build.operationInput shelved "{ ...A }" = .text "{ ...A }" := by decide
  have hspreads : Spread.ofText "{ ...A }" = ["A"] := by
    rw [Spread.ofText_eq_all]
    decide
  have hregistry : (Build.registry shelf shelved).outcome =
      .ok ((Registry.empty.register ⟨"A", "fragment A on T { x }", []⟩).register
        ⟨"A", "fragment A on T { y }", []⟩) := by
    refine Build.registry_eq_ok_iff.2 ⟨_, [_, _], find_shelf, ?_, rfl⟩
    rw [List.map_cons, List.map_cons, fragment?_shelf.1, fragment?_shelf.2]
    rfl
  have hresolve : ((Registry.empty.register ⟨"A", "fragment A on T { x }", []⟩).register
      ⟨"A", "fragment A on T { y }", []⟩ |>.resolve ["A"]).outcome =
        .ok [⟨"A", "fragment A on T { y }", []⟩] := by
    rw [Registry.outcome_resolve,
      Registry.gather_of_new (by decide) (Registry.lookup?_register_self _ _), Registry.gather_nil]
    simp [Except.bind]
  refine Build.run_eq_ok_iff.2 ⟨⟨.query, none, "{ ...A }", ["A"], _⟩, Build.operation_eq_ok_iff.2
    ⟨_, _, hregistry, read_of_target target_shelf.2.2.2, ?_⟩, rfl⟩
  rw [hinput, Registry.outcome_assemble, OperationInput.definition, hspreads, hresolve]
  rfl

theorem build_ignores_path_order_shelf :
    let line := ["build", "-f", "d", "-f", "d//a.gql", "-f", "z.gql", "op"]
    let other := ["build", "-f", "z.gql", "-f", "d//a.gql", "-f", "z.gql", "-f", "d", "op"]
    (run shelf line none).stdout = "{ ...A }\nfragment A on T { y }\n" ∧
      (run shelf other none).exitCode = 0 ∧
      (run shelf other none).stdout = "{ ...A }\nfragment A on T { y }\n" ∧
      ∃ found files op fs,
        (Discovery.find shelf shelved.extensions shelved.fragmentPaths).outcome = .ok files ∧
          (Build.operation shelf shelved).outcome = .ok op ∧
          Build.Resolved shelf found files op fs := by
  intro line other
  have hline : Command.ofLine line = .ok ⟨false, some shelved⟩ := rfl
  have hother : Command.ofLine other =
      .ok ⟨false, some { shelved with fragmentPaths := ["z.gql", "d//a.gql", "z.gql", "d"] }⟩ := rfl
  have hpaths : ∀ path, path ∈ ["z.gql", "d//a.gql", "z.gql", "d"] ↔
      path ∈ shelved.fragmentPaths := by
    intro path
    simp only [shelved, List.mem_cons, List.not_mem_nil]
    tauto
  obtain ⟨hzero, hout⟩ := run_build_of_ok none hline run_shelf
  obtain ⟨hcode, hsame, hresolved⟩ :=
    build_ignores_path_order none hline hother hpaths readsAlike_shelf
  obtain ⟨found, files, op, fs, -, hfiles, hop, hmade, -⟩ := hresolved hzero
  exact ⟨hout, hcode.trans hzero, hsame.trans hout, found, files, op, fs, hfiles, hop, hmade⟩

end Shelf

end Program

end FragmentAssembly
