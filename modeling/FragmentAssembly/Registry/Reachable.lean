/-
FragmentAssembly/Registry/Reachable.lean

The registries that actions lead to, beginning with the empty one.  A fragment that is
registered as it is must have been made by some registry; everything else is free.  The
fragments of such a registry have their own spreads (`Reachable.tracked`).
-/
import FragmentAssembly.Registry.Action

namespace FragmentAssembly

/-- A fragment that some registry made from some input. -/
def Fragment.Made (f : Fragment) : Prop :=
  ∃ (r : Registry) (input : FragmentInput), (r.add input).1.outcome = .ok f

/-- An action that registers no fragment but one that was made. -/
def Action.Honest : Action → Prop
  | register f => f.Made
  | _ => True

/-- The registries that honest actions lead to. -/
inductive Registry.Reachable : Registry → Prop
  | empty : Reachable .empty
  | perform {r : Registry} {action : Action} (h : Reachable r) (honest : action.Honest) :
      Reachable (r.perform action).2

/-! ### What making a fragment does to the registry -/

/-- What an attempt to make a fragment leads to: a refusal that leaves the fragments as they
were, or a fragment with its own spreads, registered under its own name. -/
def Registry.Attempt (r : Registry) (result : Logged FragmentError Fragment × Registry) : Prop :=
  match result.1.outcome with
  | .error _ => result.2.fragments = r.fragments
  | .ok f => f.Tracked ∧ result.2.fragments = (r.register f).fragments

namespace Registry

theorem attempt_define (r : Registry) (name definition : String) :
    r.Attempt (r.define name definition) :=
  ⟨Fragment.tracked_define name definition, rfl⟩

theorem attempt_addText (r : Registry) (definition : String) : r.Attempt (r.addText definition) := by
  unfold addText
  split
  · exact rfl
  · exact r.attempt_define _ _

theorem attempt_addHeaded (r : Registry) (d : FragmentDraft) : r.Attempt (r.addHeaded d) := by
  unfold addHeaded
  split
  · exact rfl
  · split
    · exact r.attempt_define _ _
    · split
      · exact r.attempt_define _ _
      · exact rfl

/-- Looking for a name touches no fragment. -/
@[simp] theorem fragments_nameFor? (r : Registry) (d : FragmentDraft) :
    (r.nameFor? d).2.fragments = r.fragments := by
  unfold nameFor?
  split
  · rfl
  · exact fragments_freeName r _
  · rfl

theorem attempt_addBare (r : Registry) (d : FragmentDraft) : r.Attempt (r.addBare d) := by
  have hfragments := fragments_nameFor? r d
  unfold addBare
  split
  · rename_i s heq
    rw [heq] at hfragments
    exact hfragments
  · rename_i name s heq
    rw [heq] at hfragments
    split
    · exact hfragments
    · refine ⟨Fragment.tracked_define _ _, ?_⟩
      show (s.register _).fragments = (r.register _).fragments
      rw [fragments_register, fragments_register, hfragments]

/-- Every attempt to make a fragment is a refusal or a registration. -/
theorem attempt_add (r : Registry) (input : FragmentInput) : r.Attempt (r.add input) := by
  cases input with
  | text definition => exact r.attempt_addText definition
  | draft d =>
    simp only [add]
    split
    · exact r.attempt_addHeaded d
    · exact r.attempt_addBare d

/-- A property that hangs on the fragments alone and that registering a tracked fragment keeps
is kept by making fragments. -/
theorem Attempt.keeps {r : Registry} {result : Logged FragmentError Fragment × Registry}
    (h : r.Attempt result) {P : Registry → Prop}
    (hcongr : ∀ s t : Registry, s.fragments = t.fragments → P s → P t)
    (hregister : ∀ f : Fragment, f.Tracked → P (r.register f)) (hr : P r) : P result.2 := by
  unfold Attempt at h
  split at h
  · exact hcongr _ _ h.symm hr
  · exact hcongr _ _ h.2.symm (hregister _ h.1)

end Registry

/-- A fragment that was made has its own spreads. -/
theorem Fragment.Made.tracked {f : Fragment} (h : f.Made) : f.Tracked := by
  obtain ⟨r, input, hf⟩ := h
  have := r.attempt_add input
  unfold Registry.Attempt at this
  rw [hf] at this
  exact this.1

namespace Registry

/-- A property that hangs on the fragments alone and that registering a tracked fragment keeps
holds of every registry that honest actions lead to, if it holds of the empty one. -/
theorem Reachable.induct {P : Registry → Prop}
    (hcongr : ∀ s t : Registry, s.fragments = t.fragments → P s → P t) (hempty : P Registry.empty)
    (hregister : ∀ (s : Registry) (f : Fragment), P s → f.Tracked → P (s.register f))
    {r : Registry} (h : r.Reachable) : P r := by
  induction h with
  | empty => exact hempty
  | @perform r action _ honest ih =>
    cases action with
    | add input => exact (r.attempt_add input).keeps hcongr (fun f hf => hregister r f ih hf) ih
    | load files path =>
      simp only [Registry.perform, load]
      split
      · exact ih
      · exact (r.attempt_add _).keeps hcongr (fun f hf => hregister r f ih hf) ih
    | register f => exact hregister r f ih honest.tracked
    | reset => exact hempty
    | lookup name => exact ih
    | resolve names => exact ih
    | assemble kind input => exact ih

theorem Reachable.tracked {r : Registry} (h : r.Reachable) : r.Tracked := by
  refine h.induct (fun s t heq hs name f hf => hs name f ?_) tracked_empty
    fun s f hs hf => hs.register hf
  rwa [lookup?, heq]

end Registry

end FragmentAssembly
