/-
FragmentAssembly/Proofs/Registry/OwnText.lean

The text of a registered fragment, added once more.  A fragment keeps the text that it was made
from, or gets a header in front of it; either way its text declares its name, if that is a name
at all (`Fragment.Made.declares`).  Of a header that was put in front this needs a reading of the
header: its name ends at the blank after it, and nothing in the type or in the text behind it is
looked at any more, whatever stands there (`Header.name?_headed`).

All that stands in a registry was made (`Reachable.made`), with the spreads of its own text.  So
adding the text makes the same fragment, and registering it changes nothing
(`own_text_changes_nothing`).
-/
import FragmentAssembly.Proofs.Header.Places
import FragmentAssembly.Proofs.Registry.History
import FragmentAssembly.Proofs.Registry.Refusals

namespace FragmentAssembly

open Text

/-! ### The header that is put in front of a text -/

namespace Header

/-- A text with a header in front declares the name of that header. -/
theorem name?_headed {name : String} (h : isName name = true) (typeName definition : String) :
    name? (headed name typeName definition) = some name := by
  have htext : (headed name typeName definition).toList =
      keyword ++ ([' '] ++ (name.toList ++
        ' ' :: ('o' :: 'n' :: ' ' :: (typeName.toList ++ ' ' :: definition.toList)))) := by
    simp [headed, String.toList_append, keyword]
  rw [name?_eq_first?, htext, first?_of_isName h, Option.map_some, String.ofList_toList]

end Header

/-! ### Texts that declare their names -/

namespace Registry

variable {r : Registry} {f : Fragment}

/-- What is made from a draft without a header has one of its own name. -/
theorem exists_headed_of_addBare {d : FragmentDraft} (h : (r.addBare d).1.outcome = .ok f) :
    ∃ typeName, f.definition = headed f.name typeName d.definition := by
  obtain ⟨definition, name, typeName⟩ := d
  cases typeName with
  | none => cases name <;> cases h
  | some typeName =>
    cases name <;> cases h <;> exact ⟨typeName, rfl⟩

end Registry

/-- However a fragment is made: if its name is one, its text declares it. -/
theorem Fragment.Made.declares {f : Fragment} (h : f.Made) (hname : isName f.name = true) :
    Header.name? f.definition = some f.name := by
  obtain ⟨r, input, hf⟩ := h
  cases input with
  | text definition => exact Registry.name?_of_addText hf
  | draft d =>
    cases hleads : Header.leads d.definition with
    | true =>
      rw [Registry.add_of_leads hleads] at hf
      exact Registry.name?_of_addHeaded hf
    | false =>
      rw [Registry.add_of_not_leads hleads] at hf
      obtain ⟨typeName, hdefinition⟩ := Registry.exists_headed_of_addBare hf
      rw [hdefinition]
      exact Header.name?_headed hname typeName d.definition

namespace Registry

variable {r : Registry} {f : Fragment}

/-! ### What stands in a registry -/

/-- What an honest action stores was made. -/
theorem made_of_stored {action : Action} (honest : action.Honest)
    (h : (Exchange.mk action (r.perform action).1.answer).stored? = some f) : f.Made := by
  cases action with
  | register g =>
    cases h
    exact honest
  | add _ | load _ _ => exact made_of_answer h
  | reset | lookup _ | resolve _ | assemble _ _ => cases h

/-- All that stands in a registry was made. -/
theorem Reachable.made (h : r.Reachable) {key : String} (hf : r.lookup? key = some f) :
    f.Made := by
  induction h with
  | empty => simp at hf
  | @perform r action _ honest ih =>
    cases hreset : action.isReset with
    | true =>
      obtain rfl := isReset_iff.1 hreset
      simp [Registry.perform] at hf
    | false =>
      rw [lookup?_perform hreset] at hf
      rcases Option.or_eq_some_iff.1 hf with hstored | ⟨-, hbefore⟩
      · exact made_of_stored honest (Option.filter_eq_some_iff.1 hstored).1
      · exact ih hbefore

/-- Registering what stands under its name already changes nothing. -/
theorem register_of_lookup? (h : r.lookup? f.name = some f) : r.register f = r := by
  refine Registry.ext (fragments_ext fun name => ?_) rfl
  rw [lookup?_register]
  split
  · rename_i heq
    rw [← heq, h]
  · rfl

/-! ### Adding a text again -/

/-- Adding the text of a registered fragment makes the same fragment again and leaves the registry
as it was, numbers included, if the name of the fragment is one; and a header of that name
declares it in front of any text, with any type. -/
theorem own_text_changes_nothing (h : r.Reachable) {key : String}
    (hf : r.lookup? key = some f) (hname : isName f.name = true) :
    (r.add (.text f.definition)).1.outcome = .ok f ∧
      (r.add (.text f.definition)).2 = r ∧
      ∀ typeName definition, Header.name? (headed f.name typeName definition) = some f.name := by
  have hdeclares := (h.made hf).declares hname
  have hadd : r.add (.text f.definition) = r.define f.name f.definition :=
    addText_of_declared hdeclares
  have hdefine : Fragment.define f.name f.definition = f := (h.tracked key f hf).eq_define.symm
  have hown : r.lookup? f.name = some f := by
    rw [name_of_lookup? hf]
    exact hf
  rw [hadd, outcome_define, registry_define, hdefine]
  exact ⟨rfl, register_of_lookup? hown, Header.name?_headed hname⟩

/-- A fragment with further headers in its type and in its body, beside fragments under derived
names. -/
def overheaded : Registry :=
  crowded.register
    (.define "A" (headed "A" "\x0bfragment B on T" "..fragment C \t\x7b ...D fragment E on \x7d"))

theorem reachable_overheaded : overheaded.Reachable := by
  refine reachable_crowded.give ?_
  rw [Header.leads_eq]
  decide

theorem own_text_changes_nothing_overheaded :
    overheaded.Reachable ∧
      (overheaded.add (.text ("fragment A on \x0bfragment B on T ..fragment C \t\x7b ...D " ++
        "fragment E on \x7d"))).1.outcome =
          .ok (.define "A" (headed "A" "\x0bfragment B on T"
            "..fragment C \t\x7b ...D fragment E on \x7d")) ∧
      overheaded.counters["FragmentUser"]? = some 1 ∧
      (overheaded.add (.text "fragment FragmentUser1 on User { name }")).2 = overheaded := by
  have hgiven := own_text_changes_nothing reachable_overheaded
    (lookup?_register_self crowded _) (by decide)
  have hderived : overheaded.lookup? "FragmentUser1" =
      some (.define "FragmentUser1" (headed "FragmentUser1" "User" "{ name }")) := by
    simp [overheaded, crowded, lookup?_register, Fragment.define]
  have hagain := own_text_changes_nothing reachable_overheaded hderived (by decide)
  refine ⟨reachable_overheaded, hgiven.1, ?_, hagain.2.1⟩
  simp [overheaded, crowded, setCounter]

end Registry

end FragmentAssembly
