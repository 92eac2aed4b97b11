/-
FragmentAssembly/Proofs/Registry/LeadingHeader.lean

Drafts that are kept as they are.  A draft is kept if its definition begins with the keyword, apart
from leading blanks, and declares a name.  These are two tests, and the second one looks at the
whole text.  So two things can happen (`name_of_leading`).  If a header stands where the text
begins, the fragment gets the name that follows the leading keyword.  If none stands there, because
no name follows the keyword or no ASCII blank follows the name, the fragment gets the name of a
header further on.

Such a text may well begin with the header of another fragment: a comment may follow the name
directly.  The fragment is then registered under a name that is not its own
(`name_not_of_leading`).
-/
import FragmentAssembly.Proofs.Header.Places
import FragmentAssembly.Proofs.Registry.Refusals

namespace FragmentAssembly

open Text

namespace Header

variable {text : String} {pos : Nat} {name : List Char}

/-! ### Where a text begins -/

/-- The position behind the leading blanks. -/
def leadingPlace (text : String) : Nat :=
  (text.toList.takeWhile isBlank).length

/-- The name characters behind the leading keyword and the ASCII blanks that follow it. -/
def leadingRun (text : String) : String :=
  String.ofList <|
    ((text.toList.drop (leadingPlace text + keyword.length)).dropWhile isAsciiBlank).takeWhile
      isNameChar

/-- A header does not stand among the leading blanks. -/
theorem StandsAt.leadingPlace_le (h : StandsAt text.toList pos name) : leadingPlace text ≤ pos := by
  obtain ⟨blanks, after, h⟩ := h
  apply Nat.le_of_not_lt
  intro hlt
  have hchar : text.toList[pos]? = some 'f' := by
    rw [← List.head?_drop, h.eq_append]
    rfl
  have hblank : text.toList[pos]? = some (text.toList.takeWhile isBlank)[pos] :=
    List.prefix_iff_getElem?.1 (List.takeWhile_prefix _) pos hlt
  have hmem : 'f' ∈ text.toList.takeWhile isBlank := by
    rw [Option.some.inj (hchar.symm.trans hblank)]
    exact List.getElem_mem hlt
  exact absurd (List.all_eq_true.1 List.all_takeWhile 'f' hmem) (by decide)

/-- The header at the beginning has the name that follows the leading keyword. -/
theorem StandsAt.leadingRun_eq (h : StandsAt text.toList (leadingPlace text) name) :
    leadingRun text = String.ofList name := by
  obtain ⟨blanks, after, h⟩ := h
  have hbehind : text.toList.drop (leadingPlace text + keyword.length) =
      blanks ++ (name ++ after) := by
    rw [← List.drop_drop, h.eq_append, List.drop_left]
  have hname : (name ++ after).dropWhile isAsciiBlank = name ++ after := by
    obtain ⟨c, run, rfl, -⟩ := h.exists_start
    refine List.dropWhile_cons_of_neg ?_
    rw [isAsciiBlank_of_isNameChar (h.isNameChar List.mem_cons_self)]
    exact Bool.false_ne_true
  rw [leadingRun, hbehind, List.dropWhile_append_of_pos h.blanks, hname, h.longest]

end Header

namespace Registry

variable {r : Registry} {d : FragmentDraft} {f : Fragment}

/-! ### The name of a draft that is kept -/

/-- A draft that is kept as it is gets the name that follows its leading keyword if a header stands
there, and otherwise the name of the first header further on. -/
theorem name_of_leading (hleads : Header.leads d.definition = true)
    (hf : (r.add (.draft d)).1.outcome = .ok f) :
    f.definition = d.definition ∧
      ((∃ name, Header.StandsAt d.definition.toList (Header.leadingPlace d.definition) name) →
        f.name = Header.leadingRun d.definition) ∧
      ((∀ name, ¬ Header.StandsAt d.definition.toList (Header.leadingPlace d.definition) name) →
        ∃ later, Header.leadingPlace d.definition < later ∧
          Header.FirstAt d.definition.toList later f.name.toList) := by
  rw [add_of_leads hleads] at hf
  have hdefinition := definition_of_addHeaded hf
  have hdeclared := name?_of_addHeaded hf
  rw [hdefinition] at hdeclared
  obtain ⟨pos, hpos⟩ := Header.name?_eq_some_iff.1 hdeclared
  refine ⟨hdefinition, ?_, fun hnone => ⟨pos, ?_, hpos⟩⟩
  · rintro ⟨name, hname⟩
    -- no header stands before the beginning, so the first one is the one that stands there
    obtain rfl : pos = Header.leadingPlace d.definition :=
      Nat.le_antisymm (hpos.le hname) hpos.stands.leadingPlace_le
    rw [hpos.stands.leadingRun_eq, String.ofList_toList]
  · refine Nat.lt_of_le_of_ne hpos.stands.leadingPlace_le ?_
    rintro rfl
    exact hnone _ hpos.stands

/-- Without a given name, a draft that is kept gets the declared one. -/
theorem add_kept {definition declared : String} (hleads : Header.leads definition = true)
    (hname : Header.name? definition = some declared) :
    (r.add (.draft ⟨definition, none, none⟩)).1.outcome = .ok (.define declared definition) := by
  rw [add_of_leads (d := ⟨definition, none, none⟩) hleads, addHeaded]
  simp only [hname, outcome_define]

/-- A header behind blanks of several kinds, with the keyword once more behind it. -/
def spaced : String := "\u00a0fragment\n_A1 on T { fragment B }"

theorem name_of_leading_spaced :
    Header.leads spaced = true ∧ Header.leadingPlace spaced = 1 ∧
      (∃ name, Header.StandsAt spaced.toList (Header.leadingPlace spaced) name) ∧
      ∃ f, (empty.add (.draft ⟨spaced, none, none⟩)).1.outcome = .ok f ∧ f.definition = spaced ∧
        f.name = Header.leadingRun spaced := by
  have hleads : Header.leads spaced = true := by
    rw [Header.leads_eq]
    decide
  have hname : Header.name? spaced = some "_A1" := by
    rw [Header.name?_eq_first?]
    decide
  have hstands : Header.StandsAt spaced.toList (Header.leadingPlace spaced) "_A1".toList :=
    Header.here?_drop_eq_some_iff.1 (by decide)
  obtain ⟨hdefinition, hleading, -⟩ :=
    name_of_leading (d := ⟨spaced, none, none⟩) hleads (add_kept (r := empty) hleads hname)
  exact ⟨hleads, by decide, ⟨_, hstands⟩, _, add_kept hleads hname, hdefinition,
    hleading ⟨_, hstands⟩⟩

/-- The definition of a fragment, with a comment directly behind its name, and the definition of
another one. -/
def paired : String := "fragment A# first\non T { a }\nfragment B on T { b }"

/-- Both are registered together, under the name of the second one. -/
theorem name_not_of_leading :
    Header.leads paired = true ∧ Header.leadingRun paired = "A" ∧
      ∃ f, (empty.add (.draft ⟨paired, none, none⟩)).1.outcome = .ok f ∧ f.definition = paired ∧
        f.name = "B" := by
  have hleads : Header.leads paired = true := by
    rw [Header.leads_eq]
    decide
  have hname : Header.name? paired = some "B" := by
    rw [Header.name?_eq_first?]
    decide
  exact ⟨hleads, by decide, _, add_kept hleads hname, rfl, rfl⟩

end Registry

end FragmentAssembly
