/-
FragmentAssembly/Proofs/Registry/Refusals.lean

Refusals, and what they leave behind.  There are three ways to give a fragment, and each has
its own condition under which it is refused, with one cause for each input
(`outcome_addText_eq_error_iff`, `outcome_addHeaded_eq_error_iff`,
`outcome_addBare_eq_error_iff`).

A refusal leaves the registry as it was, numbers included (`Adds.eq_of_error`).  The search for
a derived name remembers a number before anything is refused for want of a type; but a name is
derived only where there is a type, so after a search nothing is refused any more.  Numbers
change with derived names alone (`counters_add`).
-/
import FragmentAssembly.Proofs.Registry.Counters

namespace FragmentAssembly

namespace Registry

variable {r s : Registry} {d : FragmentDraft} {e : FragmentError}

/-! ### What is refused -/

/-- A text is refused just when it declares no name. -/
theorem outcome_addText_eq_error_iff {definition : String} :
    (r.addText definition).1.outcome = .error e ↔
      Header.name? definition = none ∧ e = .nameless definition := by
  rw [addText]
  cases Header.name? definition with
  | none => simp [eq_comm]
  | some declared => simp

/-- A draft with a header is refused just when it is given a name other than the declared
one. -/
theorem outcome_addHeaded_eq_error_iff {declared : String}
    (h : Header.name? d.definition = some declared) :
    (r.addHeaded d).1.outcome = .error e ↔
      ∃ given, d.name = some given ∧ given ≠ declared ∧ e = .conflictingName given declared := by
  rw [addHeaded, h]
  cases d.name with
  | none => simp
  | some given =>
    by_cases heq : given = declared
    · simp [heq]
    · simpa [heq, Ne.symm heq] using eq_comm

/-- A draft without a header is refused just when it has no type.  A derived name comes from a
type, so what is missing besides can only be the given name. -/
theorem outcome_addBare_eq_error_iff :
    (r.addBare d).1.outcome = .error e ↔
      d.typeName = none ∧ (d.name = none ∧ e = .nameless d.definition ∨
        ∃ given, d.name = some given ∧ e = .typeless given) := by
  obtain ⟨definition, name, typeName⟩ := d
  cases typeName with
  | none => cases name <;> simp [addBare, nameFor?, eq_comm]
  | some typeName => cases name <;> simp [addBare, nameFor?]

theorem add_of_leads (h : Header.leads d.definition = true) :
    r.add (.draft d) = r.addHeaded d :=
  if_pos h

theorem add_of_not_leads (h : Header.leads d.definition = false) :
    r.add (.draft d) = r.addBare d :=
  if_neg (by rw [h]; exact Bool.false_ne_true)

/-! ### What a refusal leaves behind -/

theorem Adds.eq_of_error {ε : Type} {cause : ε} (h : r.Adds (.error cause) s) : s = r := by
  cases h
  rfl

/-! ### Numbers -/

theorem counters_addText (r : Registry) (definition : String) :
    (r.addText definition).2.counters = r.counters := by
  rw [addText]
  split <;> rfl

theorem counters_addHeaded (r : Registry) (d : FragmentDraft) :
    (r.addHeaded d).2.counters = r.counters := by
  rw [addHeaded]
  split
  · rfl
  · split
    · rfl
    · split <;> rfl

/-- A given name is taken as it is, so no number is looked for. -/
theorem counters_addBare (h : d.name ≠ none ∨ d.typeName = none) :
    (r.addBare d).2.counters = r.counters := by
  obtain ⟨definition, name, typeName⟩ := d
  cases typeName with
  | none => cases name <;> rfl
  | some typeName =>
    cases name with
    | none => simp at h
    | some given => rfl

/-- Without a derived name, adding a fragment touches no number. -/
theorem counters_add {input : FragmentInput}
    (h : ∀ d typeName, input = .draft d → ¬ d.Derives typeName) :
    (r.add input).2.counters = r.counters := by
  cases input with
  | text definition => exact counters_addText r definition
  | draft d =>
    cases hleads : Header.leads d.definition with
    | true =>
      rw [add_of_leads hleads]
      exact counters_addHeaded r d
    | false =>
      rw [add_of_not_leads hleads]
      refine counters_addBare ?_
      cases hname : d.name with
      | some given => exact .inl (Option.some_ne_none given)
      | none =>
        cases htype : d.typeName with
        | none => exact .inr rfl
        | some typeName => exact absurd ⟨hname, htype, hleads⟩ (h d typeName rfl)

/-- A file holds the text of a whole definition, which needs no number. -/
theorem counters_load (r : Registry) (files : FileTree) (path : String) :
    (r.load files path).2.counters = r.counters := by
  rw [load]
  split
  · rfl
  · exact counters_addText r _

/-! ### Adding is exact about what it refuses -/

/-- A text is refused just when it declares no name; a draft with a header, which always
declares one, just when it is given another name; and a draft without a header just when it has
no type.  Whatever is refused, the registry is left as it was, and only a derived name changes
the numbers. -/
theorem add_refuses_exactly (r : Registry) :
    (∀ definition e, (r.add (.text definition)).1.outcome = .error e ↔
        Header.name? definition = none ∧ e = .nameless definition) ∧
      (∀ d : FragmentDraft, Header.leads d.definition = true →
        ∃ declared, Header.name? d.definition = some declared ∧
          ∀ e, (r.add (.draft d)).1.outcome = .error e ↔
            ∃ given, d.name = some given ∧ given ≠ declared ∧
              e = .conflictingName given declared) ∧
      (∀ d : FragmentDraft, Header.leads d.definition = false →
        ∀ e, (r.add (.draft d)).1.outcome = .error e ↔
          d.typeName = none ∧ (d.name = none ∧ e = .nameless d.definition ∨
            ∃ given, d.name = some given ∧ e = .typeless given)) ∧
      (∀ input e, (r.add input).1.outcome = .error e → (r.add input).2 = r) ∧
      (∀ files path e, (r.load files path).1.outcome = .error e → (r.load files path).2 = r) ∧
      (∀ input f, (r.add input).1.outcome = .ok f →
        (∀ d typeName, input = .draft d → ¬ d.Derives typeName) →
        (r.add input).2.counters = r.counters) ∧
      ∀ files path f, (r.load files path).1.outcome = .ok f →
        (r.load files path).2.counters = r.counters := by
  refine ⟨fun definition e => outcome_addText_eq_error_iff, fun d hleads => ?_, fun d hleads e => ?_,
    fun input e he => ?_, fun files path e he => ?_, fun input f _ hnot => counters_add hnot,
    fun files path f _ => counters_load r files path⟩
  · obtain ⟨declared, hdeclared⟩ := Header.exists_name?_of_leads hleads
    refine ⟨declared, hdeclared, fun e => ?_⟩
    rw [add_of_leads hleads]
    exact outcome_addHeaded_eq_error_iff hdeclared
  · rw [add_of_not_leads hleads]
    exact outcome_addBare_eq_error_iff
  · have hadds := r.adds_add input
    rw [he] at hadds
    exact hadds.eq_of_error
  · have hadds := r.adds_load files path
    rw [he] at hadds
    exact hadds.eq_of_error

theorem add_refuses_exactly_crowded :
    Header.leads "fragment A on T { a }" = true ∧ Header.leads "{ a }" = false ∧
      (crowded.add (.draft ⟨"fragment A on T { a }", some "B", none⟩)).1.outcome =
        .error (.conflictingName "B" "A") ∧
      (crowded.add (.draft ⟨"fragment A on T { a }", some "B", none⟩)).2 = crowded ∧
      (crowded.add (.draft ⟨"{ a }", some "B", none⟩)).1.outcome = .error (.typeless "B") ∧
      (crowded.add (.draft ⟨"{ a }", some "B", none⟩)).2 = crowded ∧
      (crowded.load .empty "").1.outcome = .error (.unreadable "" .notFound) ∧
      (crowded.load .empty "").2 = crowded ∧
      (crowded.add (.text "fragment A on T { a }")).2.counters = crowded.counters := by
  have hleads : Header.leads "fragment A on T { a }" = true := by
    rw [Header.leads_eq]
    decide
  have hbare : Header.leads "{ a }" = false := Header.leads_of_first? (by decide)
  have hname : Header.name? "fragment A on T { a }" = some "A" := by
    rw [Header.name?_eq_first?]
    decide
  have hunread : (crowded.load .empty "").1.outcome = .error (.unreadable "" .notFound) := rfl
  obtain ⟨-, hheaded, hheadless, hadd, hload, hcounters, -⟩ := add_refuses_exactly crowded
  have hconflict : (crowded.add (.draft ⟨"fragment A on T { a }", some "B", none⟩)).1.outcome =
      .error (.conflictingName "B" "A") := by
    obtain ⟨declared, hdeclared, hiff⟩ := hheaded ⟨"fragment A on T { a }", some "B", none⟩ hleads
    obtain rfl : declared = "A" := Option.some.inj (hdeclared.symm.trans hname)
    exact (hiff _).2 ⟨"B", rfl, by decide, rfl⟩
  have htypeless : (crowded.add (.draft ⟨"{ a }", some "B", none⟩)).1.outcome =
      .error (.typeless "B") :=
    (hheadless ⟨"{ a }", some "B", none⟩ hbare _).2 ⟨rfl, .inr ⟨"B", rfl, rfl⟩⟩
  have htext : (crowded.add (.text "fragment A on T { a }")).1.outcome =
      .ok (.define "A" "fragment A on T { a }") := by
    rw [add, addText_of_declared hname]
    rfl
  exact ⟨hleads, hbare, hconflict, hadd _ _ hconflict, htypeless, hadd _ _ htypeless, hunread,
    hload _ _ _ hunread, hcounters _ _ htext fun d typeName h => by cases h⟩

end Registry

end FragmentAssembly
