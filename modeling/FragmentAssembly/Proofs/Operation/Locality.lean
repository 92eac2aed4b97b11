/-
FragmentAssembly/Proofs/Operation/Locality.lean

An operation depends on what it needs, and on nothing else in the registry.  Fragments that it
does not need may be registered, replaced or left out, and it is assembled in the same way, or
fails for the same reason (`assembly_reads_needed`).  An operation that was assembled once has
all that it needs, so new names never change it.
-/
import FragmentAssembly.Proofs.Operation.SelfContained
import FragmentAssembly.Proofs.Registry.History
import FragmentAssembly.Proofs.Resolution.Agreement

namespace FragmentAssembly

namespace Registry

variable {r s : Registry} {kind : OperationKind} {input : OperationInput}

/-- A registry without the fragments under names that are not to be kept. -/
def restrict (r : Registry) (keep : String → Bool) : Registry :=
  { r with
    fragments := r.fragments.filter fun name _ => keep name
    wellNamed := by
      intro name f hf
      rw [Std.ExtTreeMap.getElem?_filter'] at hf
      exact r.wellNamed name f (Option.eq_some_of_filter_eq_some hf) }

theorem lookup?_restrict (r : Registry) {keep : String → Bool} {name : String}
    (h : keep name = true) : (r.restrict keep).lookup? name = r.lookup? name := by
  rw [lookup?, restrict, Std.ExtTreeMap.getElem?_filter']
  cases hreg : r.fragments[name]? with
  | none => simp [lookup?, hreg]
  | some f => simp [lookup?, hreg, h]

/-- An assembly reads the registry only to resolve its spreads. -/
theorem assemble_of_resolve_eq
    (h : s.resolve (Spread.ofText (input.definition kind)) =
      r.resolve (Spread.ofText (input.definition kind))) :
    s.assemble kind input = r.assemble kind input := by
  rw [assemble, assemble, h]

/-- An operation is assembled alike, answer and log, in every registry that gives the same for
the names that it needs: after a run that stores none of these, and also without the fragments
that it does not need.  Once it was assembled, a run that stores nothing but new names does not
change it either. -/
theorem assembly_reads_needed (r : Registry) (kind : OperationKind) (input : OperationInput) :
    (∀ s : Registry,
        (∀ name, r.Needs (Spread.ofText (input.definition kind)) name →
          s.lookup? name = r.lookup? name) →
        s.assemble kind input = r.assemble kind input) ∧
      (∀ actions, Action.reset ∉ actions →
        (∀ f ∈ storedSinceReset (r.history actions),
          ¬ r.Needs (Spread.ofText (input.definition kind)) f.name) →
        (r.performAll actions).2.assemble kind input = r.assemble kind input) ∧
      (∀ keep : String → Bool,
        (∀ name, r.Needs (Spread.ofText (input.definition kind)) name → keep name = true) →
        (r.restrict keep).assemble kind input = r.assemble kind input) ∧
      ∀ op actions, (r.assemble kind input).outcome = .ok op → Action.reset ∉ actions →
        (∀ f ∈ storedSinceReset (r.history actions), r.lookup? f.name = none) →
        ((r.performAll actions).2.assemble kind input).outcome = .ok op := by
  refine ⟨fun s hagree => ?_, fun actions hreset hstored => ?_, fun keep hkeep => ?_,
    fun op actions hop hreset hnew => ?_⟩
  · exact assemble_of_resolve_eq (resolve_congr hagree)
  · refine assemble_of_resolve_eq (resolve_congr fun name hneeds => ?_)
    refine lookup?_performAll_of_not_stored hreset fun f hf heq => hstored f hf ?_
    rw [heq]
    exact hneeds
  · exact assemble_of_resolve_eq (resolve_congr fun name hneeds =>
      lookup?_restrict r (hkeep name hneeds))
  · obtain ⟨fs, hfs, -⟩ := exists_of_assemble hop
    rw [assemble_of_resolve_eq (resolve_of_extends (fun name f hreg => ?_) hfs), hop]
    -- a name that is registered is not one of the new ones
    rw [lookup?_performAll_of_not_stored hreset fun g hg heq => ?_, hreg]
    have hfree := hnew g hg
    rw [heq, hreg] at hfree
    cases hfree

/-! ### Around a cycle -/

/-- What the fragments of the tangled registry spread. -/
theorem needs_tangled {names : List String} {name : String} (h : tangled.Needs names name) :
    name ∈ names ∨ name ∈ ["A", "B", "D"] := by
  cases h with
  | given h => exact .inl h
  | @spread owner f name _ hreg hname =>
    have hsub : f.spreads ⊆ ["A", "B", "D"] := by
      simp only [tangled, lookup?_register, lookup?_empty] at hreg
      -- the three fragments, the last registered one first
      split at hreg
      · cases hreg
        simp
      · split at hreg
        · cases hreg
          simp
        · split at hreg <;> cases hreg
          simp
    exact .inr (hsub hname)

/-- One more fragment, which spreads a part of the cycle. -/
def joining : List Action :=
  [.add (.text "fragment E on T { ...A }")]

theorem stored_joining (r : Registry) :
    storedSinceReset (r.history joining) = [⟨"E", "fragment E on T { ...A }", ["A"]⟩] := by
  rw [history, joining, performAll_cons,
    perform_text _ ⟨"E", "fragment E on T { ...A }", ["A"]⟩ (by decide) (by decide)]
  rfl

theorem assembly_reads_needed_tangled :
    Action.reset ∉ joining ∧
      (tangled.register ⟨"C", "fragment C on T { c }", []⟩).assemble .query (.text "{ ...A }") =
        tangled.assemble .query (.text "{ ...A }") ∧
      (tangled.performAll joining).2.assemble .query (.text "{ ...C }") =
        tangled.assemble .query (.text "{ ...C }") ∧
      (tangled.restrict (· ≠ "C")).assemble .query (.text "{ ...A }") =
        tangled.assemble .query (.text "{ ...A }") ∧
      ∃ op, (tangled.assemble .query (.text "{ ...A }")).outcome = .ok op ∧
        ((tangled.performAll joining).2.assemble .query (.text "{ ...A }")).outcome = .ok op := by
  have hreset : Action.reset ∉ joining := by simp [joining]
  have hA : Spread.ofText "{ ...A }" = ["A"] := by
    rw [Spread.ofText_eq_all]
    decide
  have hC : Spread.ofText "{ ...C }" = ["C"] := by
    rw [Spread.ofText_eq_all]
    decide
  obtain ⟨hagree, -, hrestrict, hnew⟩ := assembly_reads_needed tangled .query (.text "{ ...A }")
  obtain ⟨-, hrun, -⟩ := assembly_reads_needed tangled .query (.text "{ ...C }")
  simp only [OperationInput.definition, hA, hC] at hagree hrestrict hrun
  have hneeds : ∀ name, tangled.Needs ["A"] name → name ≠ "C" := by
    rintro name h rfl
    simpa using needs_tangled h
  obtain ⟨op, hop⟩ : ∃ op, (tangled.assemble .query (.text "{ ...A }")).outcome = .ok op := by
    rw [outcome_assemble, OperationInput.definition, hA, outcome_resolve_tangled_A]
    exact ⟨_, rfl⟩
  refine ⟨hreset, hagree _ fun name h => ?_, hrun joining hreset fun f hf h => ?_,
    hrestrict _ fun name h => by simpa using hneeds name h, op, hop,
    hnew op joining hop hreset fun f hf => ?_⟩
  · rw [lookup?_register, if_neg (hneeds name h).symm]
  · rw [stored_joining] at hf
    obtain rfl := List.mem_singleton.1 hf
    simpa using needs_tangled h
  · rw [stored_joining] at hf
    obtain rfl := List.mem_singleton.1 hf
    simp [tangled, lookup?_register]

end Registry

end FragmentAssembly
