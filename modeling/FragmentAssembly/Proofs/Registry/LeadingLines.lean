/-
FragmentAssembly/Proofs/Registry/LeadingLines.lean

Lines in front of a header.  A definition may begin with lines that do not belong to its header,
comments for example.  Nothing is known of comments where headers are looked for, so a place in
these lines may read as a header, and then it comes before the header itself.

Such a definition always declares a name, since a header stands in it, and it keeps that name when
its end is trimmed, since the header is not at the end and the first header stays the first.  The
name is that of the header behind the lines unless a place in the lines reads as a header of another
name (`registered_behind_lines`).  That needs the keyword in a line: in the lines themselves nothing
else is looked at (`first?_preamble`).
-/
import FragmentAssembly.Proofs.Command.Loading
import FragmentAssembly.Proofs.Header.Appending

namespace FragmentAssembly

open Text

variable {lines : List String} {name typeName rest content declared : String}

/-- Lines one after another, each with its end. -/
def preamble (lines : List String) : String :=
  String.join (lines.map (· ++ "\n"))

/-- A definition that begins with lines, with its header behind them. -/
def behind (lines : List String) (name typeName rest : String) : String :=
  preamble lines ++ ("fragment " ++ name ++ " on " ++ typeName ++ rest)

namespace Header

/-! ### Lines without the keyword -/

/-- The keyword does not go on behind the end of a line. -/
theorem isPrefix_line {line more : List Char} (h : keyword <+: line ++ '\n' :: more) :
    keyword <+: line := by
  obtain ⟨after, h⟩ := h
  rcases List.append_eq_append_iff.1 h with ⟨left, hline, -⟩ | ⟨inner, hkeyword, hmore⟩
  · exact ⟨left, hline.symm⟩
  · rcases inner with - | ⟨c, inner⟩
    · rw [List.append_nil] at hkeyword
      exact ⟨[], by rw [List.append_nil, hkeyword]⟩
    · obtain ⟨rfl, -⟩ := List.cons.inj hmore
      have hmem : '\n' ∈ keyword := by
        rw [hkeyword]
        exact List.mem_append_right _ List.mem_cons_self
      exact absurd hmem (by decide)

theorem here?_line {line : List Char} (h : ¬ keyword <:+: line) (more : List Char) :
    here? (line ++ '\n' :: more) = none := by
  refine here?_of_not_isPrefix (Bool.eq_false_iff.2 fun hprefix => h ?_)
  exact (isPrefix_line (List.isPrefixOf_iff_prefix.1 hprefix)).isInfix

/-- A line without the keyword is passed over. -/
theorem first?_line {line : List Char} (h : ¬ keyword <:+: line) (more : List Char) :
    first? (line ++ '\n' :: more) = first? more := by
  induction line with
  | nil =>
    have hhere := here?_line h more
    rw [List.nil_append] at hhere ⊢
    rw [first?, hhere, Option.none_or]
  | cons c line ih =>
    have hhere := here?_line h more
    rw [List.cons_append] at hhere ⊢
    rw [first?, hhere, Option.none_or]
    exact ih fun hinfix => h (List.infix_cons_iff.2 (.inr hinfix))

theorem first?_preamble (h : ∀ line ∈ lines, ¬ keyword <:+: line.toList) (more : List Char) :
    first? ((preamble lines).toList ++ more) = first? more := by
  induction lines with
  | nil => rfl
  | cons line lines ih =>
    obtain ⟨hline, hlines⟩ := List.forall_mem_cons.1 h
    have hchars : (preamble (line :: lines)).toList ++ more =
        line.toList ++ '\n' :: ((preamble lines).toList ++ more) := by
      simp [preamble]
    rw [hchars, first?_line hline, ih hlines]

/-! ### The header behind the lines -/

/-- The lines and the header behind them, up to the blank that ends its name. -/
def throughName (lines : List String) (name : String) : List Char :=
  (preamble lines).toList ++ (keyword ++ ([' '] ++ (name.toList ++ [' '])))

theorem toList_behind (lines : List String) (name typeName rest : String) :
    (behind lines name typeName rest).toList =
      throughName lines name ++ 'o' :: 'n' :: ' ' :: (typeName.toList ++ rest.toList) := by
  simp [behind, throughName, keyword]

/-- The header stands behind the lines. -/
theorem standsAt_throughName (lines : List String) (hname : isName name = true)
    (more : List Char) :
    StandsAt (throughName lines name ++ more) (preamble lines).toList.length name.toList := by
  refine ⟨[' '], [' '] ++ more, ?_⟩
  rw [throughName, List.append_assoc, List.drop_left]
  exact (readsAs_of_isName hname []).append more

/-- There is a first header, and it is read before the type is. -/
theorem exists_first?_throughName (lines : List String) (hname : isName name = true) :
    ∃ run, first? (throughName lines name) = some run := by
  rcases hfirst : first? (throughName lines name) with - | run
  · have hstands := standsAt_throughName lines hname []
    rw [List.append_nil] at hstands
    exact absurd hstands (first?_eq_none_iff.1 hfirst _ _)
  · exact ⟨run, rfl⟩

/-- A name is declared, and it is the same one when the end is trimmed. -/
theorem exists_name?_behind (lines : List String) (hname : isName name = true)
    (typeName rest : String) :
    ∃ declared, name? (behind lines name typeName rest) = some declared ∧
      name? (trimEnd (behind lines name typeName rest)) = some declared := by
  have hchars := toList_behind lines name typeName rest
  obtain ⟨kept, hkept⟩ := exists_trimEnd_eq hchars (by decide)
  obtain ⟨run, hrun⟩ := exists_first?_throughName lines hname
  refine ⟨String.ofList run, ?_, ?_⟩
  · rw [name?_eq_first?, hchars, first?_append hrun, Option.map_some]
  · rw [name?_eq_first?, hkept, first?_append hrun, Option.map_some]

/-- Behind lines without the keyword the header is the first one. -/
theorem name?_behind (h : ∀ line ∈ lines, ¬ keyword <:+: line.toList)
    (hname : isName name = true) (typeName rest : String) :
    name? (behind lines name typeName rest) = some name := by
  have hchars : (behind lines name typeName rest).toList =
      (preamble lines).toList ++ (keyword ++ ([' '] ++ (name.toList ++
        ' ' :: ('o' :: 'n' :: ' ' :: (typeName.toList ++ rest.toList))))) := by
    rw [toList_behind, throughName]
    simp only [List.append_assoc, List.cons_append, List.nil_append]
  rw [name?_eq_first?, hchars, first?_preamble h, first?_of_isName hname, Option.map_some,
    String.ofList_toList]

end Header

/-! ### Registration behind the lines -/

/-- A content is registered under a name, whether it is added as a text or read from a file. -/
structure RegisteredUnder (content declared : String) : Prop where
  added : ∀ r : Registry, (r.add (.text content)).1.outcome = .ok (.define declared content) ∧
    (r.add (.text content)).2.lookup? declared = some (.define declared content)
  loaded : ∀ (r : Registry) (files : FileTree) (path : String), files.read path = .ok content →
    (r.load files path).1.outcome = .ok (.define declared (trimEnd content)) ∧
      (r.load files path).2.lookup? declared = some (.define declared (trimEnd content))

theorem registeredUnder (h : Header.name? content = some declared)
    (htrim : Header.name? (trimEnd content) = some declared) : RegisteredUnder content declared := by
  constructor
  · intro r
    have hadd : r.add (.text content) = r.define declared content := Registry.addText_of_declared h
    rw [hadd]
    exact ⟨rfl, Registry.lookup?_register_self r (.define declared content)⟩
  · intro r files path hread
    obtain ⟨houtcome, hregistry⟩ := Registry.load_of_fragment? (r := r)
      (FileTree.fragment?_eq_some_iff.2 ⟨content, declared, hread, htrim, rfl⟩)
    rw [hregistry]
    exact ⟨houtcome, Registry.lookup?_register_self r (.define declared (trimEnd content))⟩

/-- A definition with lines in front of its header is registered under the name of the first place
in it that reads as a header.  This is the name of the header behind the lines just when no place in
the lines comes first with another name, so it is when no line holds the keyword. -/
theorem registered_behind_lines (lines : List String) {name : String} (hname : isName name = true)
    (typeName rest : String) :
    ∃ declared, RegisteredUnder (behind lines name typeName rest) declared ∧
      (∃ pos, Header.FirstAt (behind lines name typeName rest).toList pos declared.toList) ∧
      (declared = name ↔ ∀ pos other, pos < (preamble lines).toList.length →
        Header.FirstAt (behind lines name typeName rest).toList pos other → other = name.toList) ∧
      ((∀ line ∈ lines, ¬ Header.keyword <:+: line.toList) → declared = name) := by
  obtain ⟨declared, hdeclared, htrim⟩ := Header.exists_name?_behind lines hname typeName rest
  obtain ⟨pos, hpos⟩ := Header.name?_eq_some_iff.1 hdeclared
  refine ⟨declared, registeredUnder hdeclared htrim, ⟨pos, hpos⟩, ⟨?_, ?_⟩, ?_⟩
  · rintro rfl earlier other - hother
    exact hother.unique hpos
  · intro hlines
    have hstands : Header.StandsAt (behind lines name typeName rest).toList
        (preamble lines).toList.length name.toList := by
      rw [Header.toList_behind]
      exact Header.standsAt_throughName lines hname _
    -- the first place is in the lines, or it is that of the header behind them
    rcases Nat.lt_or_eq_of_le (hpos.le hstands) with hlt | rfl
    · exact String.toList_inj.1 (hlines pos _ hlt hpos)
    · exact String.toList_inj.1 (hpos.stands.unique hstands)
  · intro hlines
    exact Option.some.inj (hdeclared.symm.trans (Header.name?_behind hlines hname typeName rest))

/-- A definition with a comment and an empty line in front of its header. -/
def annotated : String := behind ["# all users", ""] "N" "T" " { a }\n"

/-- A file that holds it. -/
def annotatedFile : FileTree :=
  ⟨[(["w"], .directory), (["w", "n.gql"], .file annotated.toUTF8)], ["w"]⟩

theorem read_annotatedFile : annotatedFile.read "n.gql" = .ok annotated := by
  have hroot : annotatedFile.isDirectory ["w"] = true := by decide
  have hnode : annotatedFile.node? ["w", "n.gql"] = some (.file annotated.toUTF8) := rfl
  have hplace : annotatedFile.place true "n.gql" = .ok ["w", "n.gql"] := by
    show annotatedFile.descend true FileTree.linkLimit ["w"] ["n.gql"] = _
    simp [FileTree.descend, hroot, hnode]
  exact FileTree.read_of_target (FileTree.target_eq_ok_iff.2 ⟨hplace, hnode⟩)

theorem registered_behind_lines_annotated :
    isName "N" = true ∧ annotatedFile.read "n.gql" = .ok annotated ∧
      (Registry.empty.add (.text annotated)).1.outcome = .ok (.define "N" annotated) ∧
      (Registry.empty.load annotatedFile "n.gql").1.outcome =
        .ok (.define "N" (trimEnd annotated)) := by
  have hname : isName "N" = true := by decide
  have hletter : ∀ line ∈ ["# all users", ""], 'f' ∉ line.toList := by decide
  obtain ⟨declared, hregistered, -, -, hlines⟩ :=
    registered_behind_lines ["# all users", ""] hname "T" " { a }\n"
  obtain rfl := hlines fun line hline hkeyword =>
    hletter line hline (hkeyword.subset List.mem_cons_self)
  exact ⟨hname, read_annotatedFile, (hregistered.added _).1,
    (hregistered.loaded _ _ _ read_annotatedFile).1⟩

/-- The same with a comment that mentions another fragment. -/
def misread : String := behind ["# see the fragment X below"] "N" "T" " { a }"

/-- It is registered under the name that the comment mentions, and its own name stays unknown. -/
theorem not_registered_behind_lines :
    misread = "# see the fragment X below\nfragment N on T { a }" ∧
      (Registry.empty.add (.text misread)).1.outcome = .ok (.define "X" misread) ∧
      (Registry.empty.add (.text misread)).2.lookup? "N" = none := by
  have hname : Header.name? misread = some "X" := by
    rw [Header.name?_eq_first?]
    decide
  have hadd : Registry.empty.add (.text misread) = Registry.empty.define "X" misread :=
    Registry.addText_of_declared hname
  rw [hadd]
  refine ⟨by decide, rfl, ?_⟩
  rw [Registry.registry_define, Registry.lookup?_register, if_neg (by decide),
    Registry.lookup?_empty]

end FragmentAssembly
