/-
FragmentAssembly/Proofs/Registry/Adding.lean

What adding a fragment does to a registry, numbers included.  `Adds` lists the three things
that can happen, whatever the input and wherever it comes from: a refusal, which leaves the
registry as it was; a registration under a name that was given or declared, which touches no
number; and a registration under a derived name, after the search for it
(`adds_add`, `adds_load`).
-/
import FragmentAssembly.Proofs.Registry.FreeName
import FragmentAssembly.Registry.Load

namespace FragmentAssembly

/-- A draft that gets its name from its type: it has a type, but neither a header nor a
name. -/
structure FragmentDraft.Derives (d : FragmentDraft) (typeName : String) : Prop where
  unnamed : d.name = none
  typed : d.typeName = some typeName
  headless : Header.leads d.definition = false

namespace Registry

variable {r : Registry}

/-- What an attempt to add a fragment answers, and the registry after it. -/
inductive Adds {ε : Type} (r : Registry) : Except ε Fragment → Registry → Prop
  /-- Nothing is added. -/
  | refused (e : ε) : Adds r (.error e) r
  /-- A definition is registered under a name of its own. -/
  | defined (name definition : String) :
      Adds r (.ok (.define name definition)) (r.register (.define name definition))
  /-- A definition is registered under the free name that is found for a base. -/
  | derived (base definition : String) :
      Adds r (.ok (.define (r.freeName base).1 definition))
        ((r.freeName base).2.register (.define (r.freeName base).1 definition))

/-- A failure that is seen from further out is a failure all the same. -/
theorem Adds.mapError {ε ε' : Type} {outcome : Except ε Fragment} {s : Registry}
    (h : r.Adds outcome s) (f : ε → ε') : r.Adds (outcome.mapError f) s := by
  cases h with
  | refused e => exact .refused (f e)
  | defined name definition => exact .defined name definition
  | derived base definition => exact .derived base definition

theorem adds_addText (r : Registry) (definition : String) :
    r.Adds (r.addText definition).1.outcome (r.addText definition).2 := by
  unfold addText
  split
  · exact .refused _
  · exact .defined _ definition

theorem adds_addHeaded (r : Registry) (d : FragmentDraft) :
    r.Adds (r.addHeaded d).1.outcome (r.addHeaded d).2 := by
  unfold addHeaded
  split
  · exact .refused _
  · split
    · exact .defined _ d.definition
    · split
      · exact .defined _ d.definition
      · exact .refused _

/-- A draft without a header needs a type, and then its name is the given one or the free name
for its type. -/
theorem adds_addBare (r : Registry) (d : FragmentDraft) :
    r.Adds (r.addBare d).1.outcome (r.addBare d).2 := by
  obtain ⟨definition, name, typeName⟩ := d
  cases name with
  | none =>
    cases typeName with
    | none => exact .refused _
    | some typeName =>
      exact .derived (derivedName typeName)
        (headed (r.freeName (derivedName typeName)).1 typeName definition)
  | some name =>
    cases typeName with
    | none => exact .refused _
    | some typeName => exact .defined name (headed name typeName definition)

/-- Whatever is added, one of three things happens. -/
theorem adds_add (r : Registry) (input : FragmentInput) :
    r.Adds (r.add input).1.outcome (r.add input).2 := by
  cases input with
  | text definition => exact r.adds_addText definition
  | draft d =>
    simp only [add]
    split
    · exact r.adds_addHeaded d
    · exact r.adds_addBare d

theorem adds_load (r : Registry) (files : FileTree) (path : String) :
    r.Adds (r.load files path).1.outcome (r.load files path).2 := by
  unfold load
  split
  · exact .refused _
  · rename_i content _
    exact (r.adds_add (.text (Text.trimEnd content))).mapError LoadError.refused

/-- A draft that has a type but neither a header nor a name gets the free name for its type,
and a header of both. -/
theorem add_derived {d : FragmentDraft} {typeName : String} (hname : d.name = none)
    (htype : d.typeName = some typeName) (hleads : Header.leads d.definition = false)
    {chosen : String} {s : Registry} (hfree : r.freeName (derivedName typeName) = (chosen, s)) :
    (r.add (.draft d)).1.outcome = .ok (.define chosen (headed chosen typeName d.definition)) ∧
      (r.add (.draft d)).2 = s.register (.define chosen (headed chosen typeName d.definition)) := by
  obtain ⟨definition, name, type⟩ := d
  cases hname
  cases htype
  simp only [add, show Header.leads definition = false from hleads, addBare, nameFor?, hfree]
  exact ⟨rfl, rfl⟩

/-- A draft that is given a name and a type but has no header gets a header of both, under the
name as it is. -/
theorem add_given {d : FragmentDraft} {given typeName : String} (hname : d.name = some given)
    (htype : d.typeName = some typeName) (hleads : Header.leads d.definition = false) :
    (r.add (.draft d)).1.outcome = .ok (.define given (headed given typeName d.definition)) ∧
      (r.add (.draft d)).2 = r.register (.define given (headed given typeName d.definition)) := by
  obtain ⟨definition, name, type⟩ := d
  cases hname
  cases htype
  simp only [add, show Header.leads definition = false from hleads, addBare, nameFor?]
  exact ⟨rfl, rfl⟩

/-! ### Declared names -/

section Declared

variable {f : Fragment}

theorem outcome_addText_eq_ok_iff {definition : String} :
    (r.addText definition).1.outcome = .ok f ↔
      Header.name? definition = some f.name ∧ f = .define f.name definition := by
  constructor
  · intro h
    rcases hname : Header.name? definition with - | declared
    · rw [addText, hname] at h
      cases h
    · rw [addText_of_declared hname] at h
      cases h
      exact ⟨rfl, rfl⟩
  · rintro ⟨hname, hf⟩
    rw [addText_of_declared hname, outcome_define, ← hf]

theorem name?_of_addText {definition : String} (h : (r.addText definition).1.outcome = .ok f) :
    Header.name? f.definition = some f.name := by
  obtain ⟨hname, hf⟩ := outcome_addText_eq_ok_iff.1 h
  have hdefinition : f.definition = definition := congrArg Fragment.definition hf
  rw [hdefinition, hname]

theorem name?_of_addHeaded {d : FragmentDraft} (h : (r.addHeaded d).1.outcome = .ok f) :
    Header.name? f.definition = some f.name := by
  rcases hname : Header.name? d.definition with - | declared
  · rw [addHeaded, hname] at h
    cases h
  · simp only [addHeaded, hname] at h
    split at h
    · cases h
      exact hname
    · split at h
      · cases h
        exact hname
      · cases h

/-- A draft with a header keeps its definition. -/
theorem definition_of_addHeaded {d : FragmentDraft} (h : (r.addHeaded d).1.outcome = .ok f) :
    f.definition = d.definition := by
  unfold addHeaded at h
  split at h
  · cases h
  · split at h
    · cases h
      rfl
    · split at h
      · cases h
        rfl
      · cases h

end Declared

end Registry

end FragmentAssembly
