/-
FragmentAssembly/Proofs/Registry/Alike.lean

What a registry remembers besides its fragments cannot be seen from outside.  Two registries
may have the same fragments and remember different numbers, as one derived its names and the
other was given them; so they are not equal.  All the same, whatever is done with both, they
answer the same and log the same, and keep having the same fragments.

Most of what is done reads the fragments only.  The search for a derived name reads the numbers
as well, but where the numbers are backed it finds the name of the naive rule, and that rule
reads the fragments only.  So the relation that every action keeps (`Alike.perform`) has the
backing of both registries as a part, besides the equality of their fragments.
-/
import FragmentAssembly.Proofs.Operation.Locality
import FragmentAssembly.Proofs.Registry.NewNames

namespace FragmentAssembly

namespace Registry

variable {r s : Registry}

/-! ### What reads the fragments only -/

theorem contains_congr (h : r.fragments = s.fragments) (name : String) :
    r.contains name = s.contains name := by
  rw [contains, contains, h]

theorem registerEvents_congr (h : r.fragments = s.fragments) (f : Fragment) :
    r.registerEvents f = s.registerEvents f := by
  rw [registerEvents, registerEvents, contains_congr h]

theorem fst_define_congr (h : r.fragments = s.fragments) (name definition : String) :
    (r.define name definition).1 = (s.define name definition).1 := by
  simp only [define, registerEvents_congr h]

theorem fst_addText_congr (h : r.fragments = s.fragments) (definition : String) :
    (r.addText definition).1 = (s.addText definition).1 := by
  rw [addText, addText]
  rcases Header.name? definition with - | declared
  · rfl
  · exact fst_define_congr h declared definition

theorem fst_addHeaded_congr (h : r.fragments = s.fragments) (d : FragmentDraft) :
    (r.addHeaded d).1 = (s.addHeaded d).1 := by
  rw [addHeaded, addHeaded]
  rcases Header.name? d.definition with - | declared
  · rfl
  · rcases d.name with - | given
    · exact fst_define_congr h declared d.definition
    · show (if given = declared then r.define declared d.definition else _).1 =
        (if given = declared then s.define declared d.definition else _).1
      split
      · exact fst_define_congr h declared d.definition
      · rfl

theorem resolve_eq_of_fragments_eq (h : r.fragments = s.fragments) (names : List String) :
    r.resolve names = s.resolve names :=
  resolve_congr fun name _ => lookup?_congr h name

theorem assemble_eq_of_fragments_eq (h : r.fragments = s.fragments) (kind : OperationKind)
    (input : OperationInput) : r.assemble kind input = s.assemble kind input :=
  assemble_of_resolve_eq (resolve_eq_of_fragments_eq h _)

/-- The naive rule reads the fragments only. -/
theorem LeastFree.congr {base name : String} (h : r.LeastFree base name)
    (heq : r.fragments = s.fragments) : s.LeastFree base name := by
  have hcontains := contains_congr heq
  cases h with
  | unnumbered hfree =>
    rw [hcontains] at hfree
    exact .unnumbered hfree
  | numbered htaken hk hfree hleast =>
    rw [hcontains] at htaken hfree
    refine .numbered htaken hk hfree fun j hj hlt => ?_
    rw [← hcontains]
    exact hleast j hj hlt

/-! ### Registries that cannot be told apart -/

/-- Two registries with the same fragments, whose numbers are backed. -/
structure Alike (r s : Registry) : Prop where
  fragments : r.fragments = s.fragments
  left : r.Backed
  right : s.Backed

theorem Reachable.alike (hr : r.Reachable) (hs : s.Reachable) (h : r.fragments = s.fragments) :
    r.Alike s :=
  ⟨h, hr.backed, hs.backed⟩

/-- From different numbers the search finds the same name. -/
theorem Alike.fst_freeName (h : r.Alike s) (base : String) :
    (r.freeName base).1 = (s.freeName base).1 := by
  have hleft : s.LeastFree base (r.freeName base).1 :=
    (h.left.leastFree_freeName base).congr h.fragments
  exact hleft.unique (h.right.leastFree_freeName base)

theorem Alike.fst_nameFor? (h : r.Alike s) (d : FragmentDraft) :
    (r.nameFor? d).1 = (s.nameFor? d).1 := by
  rw [nameFor?, nameFor?]
  rcases d.name with - | given
  · rcases d.typeName with - | typeName
    · rfl
    · exact congrArg some (h.fst_freeName (derivedName typeName))
  · rfl

theorem Alike.fst_addBare (h : r.Alike s) (d : FragmentDraft) :
    (r.addBare d).1 = (s.addBare d).1 := by
  have hname := h.fst_nameFor? d
  -- the registries after the search still have the same fragments
  have hafter : (r.nameFor? d).2.fragments = (s.nameFor? d).2.fragments := by
    rw [fragments_nameFor?, fragments_nameFor?, h.fragments]
  rw [addBare, addBare]
  rcases hr : r.nameFor? d with ⟨chosen, r'⟩
  rcases hs : s.nameFor? d with ⟨chosen', s'⟩
  rw [hr, hs] at hname hafter
  obtain rfl : chosen = chosen' := hname
  rcases chosen with - | name
  · rfl
  · rcases d.typeName with - | typeName
    · rfl
    · show Logged.mk _ _ = Logged.mk _ _
      rw [fst_define_congr hafter]

theorem Alike.fst_add (h : r.Alike s) (input : FragmentInput) :
    (r.add input).1 = (s.add input).1 := by
  cases input with
  | text definition => exact fst_addText_congr h.fragments definition
  | draft d =>
    rw [add, add]
    split
    · exact fst_addHeaded_congr h.fragments d
    · exact h.fst_addBare d

/-- Attempts with the same outcome leave the same fragments, if they begin with the same. -/
theorem Attempt.fragments_eq {result result' : Logged FragmentError Fragment × Registry}
    (hr : r.Attempt result) (hs : s.Attempt result')
    (houtcome : result.1.outcome = result'.1.outcome) (h : r.fragments = s.fragments) :
    result.2.fragments = result'.2.fragments := by
  rw [Attempt, houtcome] at hr
  rw [Attempt] at hs
  rcases hout : result'.1.outcome with e | f
  · rw [hout] at hr hs
    exact hr.trans (h.trans hs.symm)
  · rw [hout] at hr hs
    rw [hr.2, hs.2, fragments_register, fragments_register, h]

theorem Alike.fragments_add (h : r.Alike s) (input : FragmentInput) :
    (r.add input).2.fragments = (s.add input).2.fragments :=
  (r.attempt_add input).fragments_eq (s.attempt_add input)
    (congrArg Logged.outcome (h.fst_add input)) h.fragments

/-! ### Actions and runs -/

/-- What an action answers and logs, and the fragments after it, are the same in both. -/
theorem Alike.perform_eq (h : r.Alike s) (action : Action) :
    (r.perform action).1 = (s.perform action).1 ∧
      (r.perform action).2.fragments = (s.perform action).2.fragments := by
  cases action with
  | add input =>
    rw [perform_add, perform_add, h.fst_add]
    exact ⟨rfl, h.fragments_add input⟩
  | load files path =>
    rw [perform_load, perform_load, load, load]
    rcases files.read path with cause | content
    · exact ⟨rfl, h.fragments⟩
    · have hadd := h.fst_add (.text (Text.trimEnd content))
      refine ⟨?_, h.fragments_add _⟩
      dsimp only
      rw [hadd]
  | register f =>
    constructor
    · show Reply.mk _ _ = Reply.mk _ _
      rw [registerEvents_congr h.fragments]
    · show r.fragments.insert f.name f = s.fragments.insert f.name f
      rw [h.fragments]
  | reset => exact ⟨rfl, rfl⟩
  | lookup name =>
    refine ⟨?_, h.fragments⟩
    show Reply.mk _ _ = Reply.mk _ _
    rw [lookup?_congr h.fragments]
  | resolve names =>
    refine ⟨?_, h.fragments⟩
    show Reply.mk _ _ = Reply.mk _ _
    rw [resolve_eq_of_fragments_eq h.fragments]
  | assemble kind input =>
    refine ⟨?_, h.fragments⟩
    show Reply.mk _ _ = Reply.mk _ _
    rw [assemble_eq_of_fragments_eq h.fragments]

/-- No action makes a difference between the two. -/
theorem Alike.perform (h : r.Alike s) (action : Action) :
    (r.perform action).2.Alike (s.perform action).2 :=
  ⟨(h.perform_eq action).2, h.left.perform action, h.right.perform action⟩

/-- No run makes a difference either. -/
theorem Alike.performAll (h : r.Alike s) (actions : List Action) :
    (r.performAll actions).1 = (s.performAll actions).1 ∧
      (r.performAll actions).2.Alike (s.performAll actions).2 := by
  induction actions generalizing r s with
  | nil => exact ⟨rfl, h⟩
  | cons action actions ih =>
    obtain ⟨hreplies, hafter⟩ := ih (h.perform action)
    rw [performAll_cons, performAll_cons, (h.perform_eq action).1, hreplies]
    exact ⟨rfl, hafter⟩

/-- Reachable registries with the same fragments give the same replies, answers and log lines,
in every run, and have the same fragments after every step of it. -/
theorem replies_eq_of_fragments_eq (hr : r.Reachable) (hs : s.Reachable)
    (h : r.fragments = s.fragments) (actions : List Action) :
    (r.performAll actions).1 = (s.performAll actions).1 ∧
      ∀ n, (r.performAll (actions.take n)).2.fragments =
        (s.performAll (actions.take n)).2.fragments := by
  have halike := hr.alike hs h
  refine ⟨(halike.performAll actions).1, fun n => ?_⟩
  exact (halike.performAll (actions.take n)).2.fragments

/-- The fragments of the crowded registry, the second of which was given the name that the other
one derived; so no number is remembered. -/
def uncounted : Registry :=
  (lone.register (.define "FragmentUser1" (headed "FragmentUser1" "User" "{ name }"))).register
    ⟨"FragmentUser2", "fragment FragmentUser2 on User { id }", []⟩

theorem reachable_uncounted : uncounted.Reachable := by
  refine Reachable.write ?_ (by decide) (by decide)
  exact reachable_lone.give (Header.leads_of_first? (by decide))

theorem crowded_ne_uncounted : crowded ≠ uncounted := by
  intro heq
  have hcounter := congrArg (fun r => r.counters["FragmentUser"]?) heq
  simp [crowded, uncounted, lone, setCounter, empty] at hcounter

theorem replies_eq_of_fragments_eq_crowded :
    crowded.Reachable ∧ uncounted.Reachable ∧ crowded ≠ uncounted ∧
      crowded.fragments = uncounted.fragments ∧
      (crowded.performAll overlapping).1 = (uncounted.performAll overlapping).1 ∧
      (crowded.performAll overlapping).2.fragments =
        (uncounted.performAll overlapping).2.fragments := by
  have hfragments : crowded.fragments = uncounted.fragments := rfl
  obtain ⟨hreplies, hafter⟩ :=
    replies_eq_of_fragments_eq reachable_crowded reachable_uncounted hfragments overlapping
  exact ⟨reachable_crowded, reachable_uncounted, crowded_ne_uncounted, hfragments, hreplies,
    hafter overlapping.length⟩

end Registry

end FragmentAssembly
