/-
FragmentAssembly/Proofs/Command/VariableForms.lean

The forms in which an argument may declare a variable.  Around the name and around the type there
may be blanks, and in front of the name dollar signs; the declaration is what is left
(`ofArgument_eq_ok_iff`).

The blanks go first and the dollar signs after them, and then nothing looks for blanks again.  So a
blank between the dollar signs and the name stays where it is and belongs to the name, while the
type is trimmed at both ends.  A declaration whose name begins with such a blank is not read back
when it is written as `name=Type` (`beginsBlank_of_plain`).  All others are, and every form of them
declares the same variable (`ofArgument_of_spells`).
-/
import FragmentAssembly.Command.Variable
import FragmentAssembly.Proofs.Text.Trimming

namespace FragmentAssembly.Variable

open Text

variable {argument left right name typeName text : String} {v : Variable} {dollars : Nat}

/-! ### Dollar signs -/

/-- A name with dollar signs in front of it. -/
def dollared (dollars : Nat) (name : String) : String :=
  String.ofList (List.replicate dollars '$' ++ name.toList)

/-- Whether a text begins with a dollar sign. -/
def beginsDollar (text : String) : Bool :=
  text.toList.head?.any (· == '$')

theorem dollared_zero (name : String) : dollared 0 name = name := by
  rw [dollared, List.replicate_zero, List.nil_append, String.ofList_toList]

theorem beginsDollar_dropDollars (text : String) : beginsDollar (dropDollars text) = false := by
  rw [beginsDollar, dropDollars, String.toList_ofList]
  exact head?_dropWhile_any (· == '$') _

theorem exists_eq_dollared (text : String) :
    ∃ dollars, text = dollared dollars (dropDollars text) := by
  refine ⟨(text.toList.takeWhile (· == '$')).length, ?_⟩
  rw [dollared, ← takeWhile_beq_eq_replicate, dropDollars, String.toList_ofList,
    List.takeWhile_append_dropWhile, String.ofList_toList]

theorem dropDollars_dollared (dollars : Nat) (h : beginsDollar name = false) :
    dropDollars (dollared dollars name) = name := by
  have hrun : ∀ c ∈ List.replicate dollars '$', (c == '$') = true := fun c hc =>
    beq_iff_eq.2 (List.eq_of_mem_replicate hc)
  rw [dropDollars, dollared, String.toList_ofList, dropWhile_run_append hrun h,
    String.ofList_toList]

/-- Dollar signs do not change how a text ends. -/
theorem endsBlank_dollared (dollars : Nat) (hne : name ≠ "") :
    endsBlank (dollared dollars name) = endsBlank name := by
  have hlast := List.getLast?_eq_some_getLast (mt String.toList_eq_nil_iff.1 hne)
  rw [endsBlank, endsBlank, dollared, String.toList_ofList, List.getLast?_append, hlast,
    Option.some_or]

/-- A dollar sign is no blank, so behind one the name may begin as it likes. -/
theorem beginsBlank_dollared (h : beginsBlank name = false ∨ dollars ≠ 0) :
    beginsBlank (dollared dollars name) = false := by
  rcases dollars with - | dollars
  · rw [dollared_zero]
    exact h.resolve_right fun h => h rfl
  · rw [beginsBlank, dollared, String.toList_ofList]
    rfl

theorem trimmed_dollared (hne : name ≠ "") (hends : endsBlank name = false)
    (hbegins : beginsBlank name = false ∨ dollars ≠ 0) : Trimmed (dollared dollars name) where
  begins := beginsBlank_dollared hbegins
  ends := by rw [endsBlank_dollared dollars hne, hends]

/-! ### The two sides of an argument -/

/-- An argument that declares a variable is split at its first `=`. -/
theorem exists_split_of_ofArgument (h : ofArgument argument = .ok v) :
    ∃ left right, argument = left ++ "=" ++ right ∧ '=' ∉ left.toList := by
  rw [ofArgument] at h
  rcases hsplit : splitFirst? '=' argument with - | ⟨left, right⟩
  · rw [hsplit] at h
    cases h
  · obtain ⟨hargument, hleft⟩ := eq_of_splitFirst? hsplit
    refine ⟨left, right, String.toList_inj.1 ?_, hleft⟩
    rw [hargument, String.toList_append, String.toList_append, List.append_assoc]
    rfl

theorem ofArgument_split_eq_ok_iff (hleft : '=' ∉ left.toList) :
    ofArgument (left ++ "=" ++ right) = .ok v ↔
      dropDollars (trim left) = v.name ∧ trim right = v.typeName ∧
        v.name ≠ "" ∧ v.typeName ≠ "" := by
  have hsplit : splitFirst? '=' (left ++ "=" ++ right) = some (left, right) :=
    splitFirst?_append hleft right
  obtain ⟨name, typeName⟩ := v
  rw [ofArgument, hsplit]
  simp only [Bool.or_eq_true, String.isEmpty_iff]
  split
  · rename_i hempty
    constructor
    · intro h
      cases h
    · rintro ⟨hname, htype, hne⟩
      rw [hname, htype] at hempty
      exact absurd hempty (not_or.2 hne)
  · rename_i hne
    rw [not_or] at hne
    simp only [Except.ok.injEq, Variable.mk.injEq]
    constructor
    · rintro ⟨rfl, rfl⟩
      exact ⟨rfl, rfl, hne⟩
    · exact fun h => ⟨h.1, h.2.1⟩

/-! ### Forms of a declaration -/

/-- An argument spells a declaration: blanks may stand around the name and around the type, and
dollar signs in front of the name. -/
def Spells (argument : String) (dollars : Nat) (v : Variable) : Prop :=
  ∃ left right, argument = left ++ "=" ++ right ∧ Padded left (dollared dollars v.name) ∧
    Padded right v.typeName

/-- What is known of a declaration, whatever the argument was.  Whether the name begins with a blank
is not known. -/
structure Tidy (v : Variable) : Prop where
  name_ne : v.name ≠ ""
  name_undivided : '=' ∉ v.name.toList
  name_begins : beginsDollar v.name = false
  name_ends : endsBlank v.name = false
  type_ne : v.typeName ≠ ""
  type_trimmed : Trimmed v.typeName

/-- The first `=` of an argument that spells a declaration is the one behind the name. -/
theorem notMem_of_padded_dollared (hname : '=' ∉ name.toList)
    (h : Padded left (dollared dollars name)) : '=' ∉ left.toList := by
  obtain ⟨before, after, hbefore, hafter, hleft⟩ := h
  rw [hleft, dollared, String.toList_ofList]
  intro hmem
  rcases List.mem_append.1 hmem with hmem | hmem
  · exact absurd (hbefore _ hmem) (by decide)
  rcases List.mem_append.1 hmem with hmem | hmem
  · rcases List.mem_append.1 hmem with hmem | hmem
    · exact absurd (List.eq_of_mem_replicate hmem) (by decide)
    · exact hname hmem
  · exact absurd (hafter _ hmem) (by decide)

theorem dollared_ne (dollars : Nat) (h : name ≠ "") : dollared dollars name ≠ "" := by
  intro heq
  have hchars := congrArg String.toList heq
  rw [dollared, String.toList_ofList] at hchars
  exact h (String.toList_eq_nil_iff.1 (List.append_eq_nil_iff.1 hchars).2)

/-- Every form of a declaration declares it, if the blanks at the beginning of its name, where there
are some, stand behind a dollar sign. -/
theorem ofArgument_of_spells (hv : v.Tidy) (h : Spells argument dollars v)
    (hbegins : beginsBlank v.name = false ∨ dollars ≠ 0) : ofArgument argument = .ok v := by
  obtain ⟨left, right, rfl, hleft, hright⟩ := h
  rw [ofArgument_split_eq_ok_iff (notMem_of_padded_dollared hv.name_undivided hleft)]
  refine ⟨?_, trim_eq hright hv.type_ne hv.type_trimmed, hv.name_ne, hv.type_ne⟩
  rw [trim_eq hleft (dollared_ne dollars hv.name_ne)
    (trimmed_dollared hv.name_ne hv.name_ends hbegins), dropDollars_dollared dollars hv.name_begins]

/-- An argument declares a variable just when it is a form of the declaration. -/
theorem ofArgument_eq_ok_iff :
    ofArgument argument = .ok v ↔
      v.Tidy ∧ ∃ dollars, Spells argument dollars v ∧
        (beginsBlank v.name = false ∨ dollars ≠ 0) := by
  constructor
  · intro h
    obtain ⟨left, right, rfl, hleft⟩ := exists_split_of_ofArgument h
    obtain ⟨hname, htype, hname_ne, htype_ne⟩ := (ofArgument_split_eq_ok_iff hleft).1 h
    obtain ⟨dollars, hdollars⟩ := exists_eq_dollared (trim left)
    rw [hname] at hdollars
    have htrimmed := trimmed_trim left
    have hpadded := padded_trim left
    rw [hdollars] at htrimmed hpadded
    have hundivided : '=' ∉ v.name.toList := by
      obtain ⟨before, after, -, -, heq⟩ := hpadded
      refine fun hmem => hleft ?_
      rw [heq, dollared, String.toList_ofList]
      exact List.mem_append_right _ (List.mem_append_left _ (List.mem_append_right _ hmem))
    have htidy : v.Tidy :=
      { name_ne := hname_ne
        name_undivided := hundivided
        name_begins := by rw [← hname, beginsDollar_dropDollars]
        name_ends := by rw [← endsBlank_dollared dollars hname_ne, htrimmed.ends]
        type_ne := htype_ne
        type_trimmed := htype ▸ trimmed_trim right }
    refine ⟨htidy, dollars, ⟨left, right, rfl, hpadded, htype ▸ padded_trim right⟩, ?_⟩
    -- without a dollar sign the name is all that trimming left
    rcases Nat.eq_zero_or_pos dollars with rfl | hpos
    · rw [dollared_zero] at htrimmed
      exact .inl htrimmed.begins
    · exact .inr (Nat.ne_of_gt hpos)
  · rintro ⟨hv, dollars, hspells, hbegins⟩
    exact ofArgument_of_spells hv hspells hbegins

/-! ### The canonical forms -/

theorem spells_plain (v : Variable) : Spells (v.name ++ "=" ++ v.typeName) 0 v := by
  refine ⟨v.name, v.typeName, rfl, ?_, padded_refl _⟩
  rw [dollared_zero]
  exact padded_refl _

theorem spells_dollared (v : Variable) : Spells ("$" ++ v.name ++ "=" ++ v.typeName) 1 v := by
  refine ⟨"$" ++ v.name, v.typeName, rfl, ?_, padded_refl _⟩
  have hname : dollared 1 v.name = "$" ++ v.name := by
    rw [dollared, ← String.toList_inj, String.toList_ofList, String.toList_append]
    rfl
  rw [hname]
  exact padded_refl _

/-- Trimming never makes a text longer, and neither does dropping dollar signs. -/
theorem trim_eq_of_dropDollars (h : dropDollars (trim name) = name) : trim name = name := by
  obtain ⟨before, after, -, -, hpadded⟩ := padded_trim name
  obtain ⟨dollars, hdollars⟩ := exists_eq_dollared (trim name)
  rw [h, dollared] at hdollars
  have hlength := congrArg List.length hpadded
  rw [hdollars, String.toList_ofList] at hlength
  simp only [List.length_append, List.length_replicate] at hlength
  obtain rfl : dollars = 0 := by omega
  rw [hdollars, List.replicate_zero, List.nil_append, String.ofList_toList]

theorem beginsBlank_of_plain (h : ofArgument (v.name ++ "=" ++ v.typeName) = .ok v) :
    beginsBlank v.name = false := by
  obtain ⟨hv, -⟩ := ofArgument_eq_ok_iff.1 h
  obtain ⟨hname, -⟩ := (ofArgument_split_eq_ok_iff hv.name_undivided).1 h
  rw [← trim_eq_of_dropDollars hname]
  exact (trimmed_trim v.name).begins

/-- What follows the blanks and the dollar signs at the beginning of an argument is the name. -/
theorem beginsBlank_dropDollars_trimStart (hv : v.Tidy) (h : Spells argument dollars v)
    (hbegins : beginsBlank v.name = false ∨ dollars ≠ 0) :
    beginsBlank (dropDollars (trimStart argument)) = beginsBlank v.name := by
  obtain ⟨left, right, rfl, ⟨before, after, hbefore, -, hleft⟩, -⟩ := h
  obtain ⟨more, hmore⟩ : ∃ more, more = String.ofList (after ++ '=' :: right.toList) := ⟨_, rfl⟩
  have hblank : beginsBlank (v.name ++ more) = beginsBlank v.name := by
    rw [beginsBlank, String.toList_append, head?_append_of_ne hv.name_ne, beginsBlank]
  have hdollar : beginsDollar (v.name ++ more) = false := by
    rw [beginsDollar, String.toList_append, head?_append_of_ne hv.name_ne]
    exact hv.name_begins
  have hstart : trimStart (left ++ "=" ++ right) = dollared dollars (v.name ++ more) := by
    refine trimStart_eq ?_ hbefore ?_
    · rw [String.toList_append, String.toList_append, hleft, dollared, dollared, hmore]
      simp
    · refine beginsBlank_dollared ?_
      rw [hblank]
      exact hbegins
  rw [hstart, dropDollars_dollared dollars hdollar, hblank]

/-- What an accepted argument declares is tidy, and it is read back when it is written with one dollar
sign and nothing around it.  Only the beginning of the name is left open: it is a blank just when one
follows the dollar signs of the argument.  Without the dollar sign the declaration is read back just
when its name does not begin with a blank, and then every form of it declares the same variable. -/
theorem ofArgument_tidy (h : ofArgument argument = .ok v) :
    v.Tidy ∧ ofArgument ("$" ++ v.name ++ "=" ++ v.typeName) = .ok v ∧
      (ofArgument (v.name ++ "=" ++ v.typeName) = .ok v ↔ beginsBlank v.name = false) ∧
      beginsBlank v.name = beginsBlank (dropDollars (trimStart argument)) ∧
      (beginsBlank v.name = false →
        ∀ dollars other, Spells other dollars v → ofArgument other = .ok v) := by
  obtain ⟨hv, dollars, hspells, hbegins⟩ := ofArgument_eq_ok_iff.1 h
  refine ⟨hv, ofArgument_of_spells hv (spells_dollared v) (.inr Nat.one_ne_zero), ⟨?_, ?_⟩,
    (beginsBlank_dropDollars_trimStart hv hspells hbegins).symm, ?_⟩
  · exact beginsBlank_of_plain
  · exact fun hname => ofArgument_of_spells hv (spells_plain v) (.inl hname)
  · exact fun hname dollars other hother => ofArgument_of_spells hv hother (.inl hname)

/-- Dollar signs and blanks on all sides. -/
theorem ofArgument_tidy_spaced :
    ofArgument " $$id = ID! = 1\t" = .ok ⟨"id", "ID! = 1"⟩ ∧ (⟨"id", "ID! = 1"⟩ : Variable).Tidy ∧
      ofArgument "$id=ID! = 1" = .ok ⟨"id", "ID! = 1"⟩ ∧
      ofArgument "id=ID! = 1" = .ok ⟨"id", "ID! = 1"⟩ := by
  have hok : ofArgument " $$id = ID! = 1\t" = .ok ⟨"id", "ID! = 1"⟩ := rfl
  obtain ⟨hv, hdollar, hplain, -⟩ := ofArgument_tidy hok
  exact ⟨hok, hv, hdollar, hplain.2 (by decide)⟩

/-- A blank between the dollar sign and the name is kept, and the declaration that is made of it
declares another variable when it is read again. -/
theorem ofArgument_not_tidy :
    ofArgument "$ x=Int" = .ok ⟨" x", "Int"⟩ ∧ beginsBlank " x" = true ∧
      ofArgument (" x" ++ "=" ++ "Int") = .ok ⟨"x", "Int"⟩ ∧
      ofArgument "$x=Int" = .ok ⟨"x", "Int"⟩ :=
  ⟨rfl, by decide, rfl, rfl⟩

end FragmentAssembly.Variable
