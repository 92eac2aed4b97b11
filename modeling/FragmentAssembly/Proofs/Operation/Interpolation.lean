/-
FragmentAssembly/Proofs/Operation/Interpolation.lean

Writing a fragment into an operation.  A fragment that was just made is written as its spread,
and an operation in which it is written so should come out with its definition.  It does if the
fragment has a readable name (`display_read_back`): the spread is then found wherever it stands,
what is resolved covers the names that the operation spreads (`exists_of_mem_of_resolve`), and the
fragment that was made last is the one under its name.

Given names are not checked, so the condition is needed.  An operation in which a fragment
called `on` is written spreads nothing (`display_not_read_back`).
-/
import FragmentAssembly.Proofs.Operation.SelfContained
import FragmentAssembly.Proofs.Registry.NewNames
import FragmentAssembly.Proofs.Registry.Refusals
import FragmentAssembly.Proofs.Spread.Readable

namespace FragmentAssembly

namespace Registry

variable {r : Registry}

/-- What is registered under a given name is among the resolved fragments. -/
theorem exists_of_mem_of_resolve {names : List String} {fs : List Fragment} {name : String}
    (h : (r.resolve names).outcome = .ok fs) (hname : name ∈ names) :
    ∃ f ∈ fs, r.lookup? name = some f := by
  have hcovers := covers_of_ok h
  obtain ⟨f, hf, rfl⟩ := List.mem_map.1 (hcovers.closed name (.inl hname))
  exact ⟨f, hf, hcovers.registered f hf⟩

/-! ### The fragment that was made last -/

/-- A fragment that an action answers with stands under its name afterwards. -/
theorem lookup?_of_answer {action : Action} {f : Fragment}
    (h : (r.perform action).1.answer.fragment? = some f) :
    (r.perform action).2.lookup? f.name = some f := by
  have hreset : action.isReset = false := by
    cases action with
    | reset => cases h
    | _ => rfl
  have hstored : (Exchange.mk action (r.perform action).1.answer).stored? = some f := by
    cases action with
    | register g => cases h
    | _ => exact h
  rw [lookup?_perform hreset, hstored]
  simp

end Registry

/-- An action that makes a fragment under a name that its text declares. -/
inductive Action.Declares : Action → Prop
  | text (definition : String) : Declares (.add (.text definition))
  | headed {d : FragmentDraft} (h : Header.leads d.definition = true) : Declares (.add (.draft d))
  | file (files : FileTree) (path : String) : Declares (.load files path)

namespace Registry

variable {r : Registry} {action : Action} {f : Fragment}

theorem isName_of_declares (hdeclares : action.Declares)
    (h : (r.perform action).1.answer.fragment? = some f) : Text.isName f.name = true := by
  cases hdeclares with
  | text definition => exact Header.isName_of_name? (name?_of_addText (answered_add_iff.1 h))
  | @headed d hleads =>
    rw [answered_add_iff, add_of_leads hleads] at h
    exact Header.isName_of_name? (name?_of_addHeaded h)
  | file files path =>
    obtain ⟨content, -, hadd⟩ := addText_of_load (answered_load_iff.1 h)
    exact Header.isName_of_name? (name?_of_addText hadd)

theorem readable_iff_of_derives {d : FragmentDraft} {typeName : String}
    (hderives : d.Derives typeName) (h : (r.add (.draft d)).1.outcome = .ok f) :
    Spread.Readable f.name ↔ ∀ c ∈ typeName.toList, Text.isNameChar c = true := by
  obtain ⟨hok, -⟩ := add_derived (r := r) hderives.unnamed hderives.typed hderives.headless rfl
  rw [hok] at h
  cases h
  rcases freeName_eq_or_numbered r (derivedName typeName) with hname | ⟨k, hname⟩
  · exact readable_derived_iff (.inl hname)
  · exact readable_derived_iff (.inr ⟨k, hname⟩)

/-! ### Fragments in operations -/

theorem ofText_display_eq_iff (f : Fragment) :
    Spread.ofText f.display = [f.name] ↔ Spread.Readable f.name := by
  rw [Fragment.display]
  exact Spread.ofText_dots_eq_iff f.name

/-- The spread of a fragment that was just made is read back just when its name is readable.  A
name that the text declares is, unless it is the word of an inline fragment; a derived name is
if its type is made of name characters.  An operation in which such a spread stands, with no
name character directly after it, lists the name, and where it is assembled right afterwards it
comes with the definition of the fragment. -/
theorem display_read_back (h : (r.perform action).1.answer.fragment? = some f) :
    (Spread.ofText f.display = [f.name] ↔ Spread.Readable f.name) ∧
      (action.Declares → (Spread.Readable f.name ↔ f.name ≠ "on")) ∧
      (∀ d typeName, action = .add (.draft d) → d.Derives typeName →
        (Spread.Readable f.name ↔ ∀ c ∈ typeName.toList, Text.isNameChar c = true)) ∧
      (Spread.Readable f.name → ∀ kind operation before after,
        operation.definition kind = before ++ f.display ++ after → Spread.EndsName after →
        f.name ∈ Spread.ofText (operation.definition kind) ∧
          ∀ op, ((r.perform action).2.assemble kind operation).outcome = .ok op →
            f.name ∈ op.spreads ∧ ∃ fs, f ∈ fs ∧ op.document = document op.definition fs) := by
  refine ⟨ofText_display_eq_iff f, fun hdeclares => ?_, ?_, ?_⟩
  · exact Spread.readable_iff_of_isName (isName_of_declares hdeclares h)
  · rintro d typeName rfl hderives
    exact readable_iff_of_derives hderives (answered_add_iff.1 h)
  · intro hreadable kind operation before after htext hafter
    have hmem : f.name ∈ Spread.ofText (operation.definition kind) := by
      rw [htext, Fragment.display, Spread.ofText_interpolate hreadable before hafter]
      exact List.mem_append_right _ List.mem_cons_self
    refine ⟨hmem, fun op hop => ?_⟩
    obtain ⟨fs, hfs, rfl⟩ := exists_of_assemble hop
    -- what is resolved for the name is what stands under it, and that was made last
    obtain ⟨g, hg, hlookup⟩ := exists_of_mem_of_resolve hfs hmem
    obtain rfl : f = g := Option.some.inj ((lookup?_of_answer h).symm.trans hlookup)
    exact ⟨hmem, fs, hg, rfl⟩

/-- A second fragment for users, whose name gets a number. -/
def another : FragmentDraft := ⟨"{ name }", none, some "User"⟩

/-- The fragment that is made of it. -/
def numbered : Fragment :=
  ⟨"FragmentUser1", "fragment FragmentUser1 on User { name }", []⟩

theorem derives_another : another.Derives "User" :=
  ⟨rfl, rfl, Header.leads_of_first? (by decide)⟩

theorem perform_another :
    (lone.perform (.add (.draft another))).1.answer.fragment? = some numbered := by
  obtain ⟨hok, -⟩ := add_derived (r := lone) (d := another) derives_another.unnamed
    derives_another.typed derives_another.headless freeName_lone
  have hspreads : Spread.ofText (headed "FragmentUser1" "User" "{ name }") = [] := by
    rw [Spread.ofText_eq_all]
    decide
  have hanswer := answered_add_iff.2 hok
  rw [Fragment.define, show another.definition = "{ name }" from rfl, hspreads] at hanswer
  exact hanswer

theorem display_read_back_another :
    (lone.perform (.add (.draft another))).1.answer.fragment? = some numbered ∧
      Spread.Readable numbered.name ∧ Spread.ofText numbered.display = [numbered.name] ∧
      ∃ op, ((lone.perform (.add (.draft another))).2.assemble .query
          (.text ("\x7b user \x7b " ++ numbered.display ++ " \x7d \x7d"))).outcome = .ok op ∧
        numbered.name ∈ op.spreads ∧
        ∃ fs, numbered ∈ fs ∧ op.document = document op.definition fs := by
  obtain ⟨hiff, -, hderived, hquery⟩ := display_read_back perform_another
  have hreadable := (hderived another "User" rfl derives_another).2
    (List.all_eq_true.1 (by decide))
  have hafter : Spread.EndsName " \x7d \x7d" := by
    intro c rest heq
    cases heq
    decide
  obtain ⟨-, hop⟩ := hquery hreadable .query
    (.text ("\x7b user \x7b " ++ numbered.display ++ " \x7d \x7d"))
    "\x7b user \x7b " " \x7d \x7d" rfl hafter
  have hspreads : Spread.ofText ("\x7b user \x7b " ++ numbered.display ++ " \x7d \x7d") =
      [numbered.name] := by
    rw [Spread.ofText_eq_all]
    decide
  have hresolve : ((lone.perform (.add (.draft another))).2.resolve [numbered.name]).outcome =
      .ok [numbered] := by
    rw [outcome_resolve, gather_of_new (by decide) (lookup?_of_answer perform_another),
      show numbered.spreads = [] from rfl, gather_nil]
    simp [Except.bind]
  obtain ⟨op, hok⟩ : ∃ op, ((lone.perform (.add (.draft another))).2.assemble .query
      (.text ("\x7b user \x7b " ++ numbered.display ++ " \x7d \x7d"))).outcome = .ok op := by
    rw [outcome_assemble, OperationInput.definition, hspreads, hresolve]
    exact ⟨_, rfl⟩
  exact ⟨perform_another, hreadable, hiff.2 hreadable, op, hok, hop op hok⟩

/-- A fragment that is given the name of an inline fragment. -/
def worded : FragmentDraft := ⟨"{ a }", some "on", some "T"⟩

/-- It is registered, and an operation in which it is written comes out without it. -/
theorem display_not_read_back :
    ∃ f, (empty.add (.draft worded)).1.outcome = .ok f ∧
      Spread.ofText f.display ≠ [f.name] ∧
      ∃ op, ((empty.add (.draft worded)).2.assemble .query
          (.text ("\x7b " ++ f.display ++ " \x7d"))).outcome = .ok op ∧
        f.name ∉ op.spreads ∧ op.document = "{ ...on }" := by
  obtain ⟨hok, -⟩ := add_given (r := empty) (d := worded) rfl rfl
    (Header.leads_of_first? (by decide))
  generalize hf : Fragment.define _ _ = f at hok
  have hname : f.name = "on" := by rw [← hf, Fragment.define]
  have htext : "\x7b " ++ f.display ++ " \x7d" = "{ ...on }" := by
    rw [Fragment.display, hname]
    rfl
  have hspreads : Spread.ofText "{ ...on }" = [] := by
    rw [Spread.ofText_eq_all]
    decide
  refine ⟨f, hok, ?_, ⟨.query, none, "{ ...on }", [], "{ ...on }"⟩, ?_, List.not_mem_nil, rfl⟩
  · rw [Ne, ofText_display_eq_iff, hname]
    decide
  · rw [htext, outcome_assemble, OperationInput.definition, hspreads, outcome_resolve, gather_nil]
    rfl

end Registry

end FragmentAssembly
