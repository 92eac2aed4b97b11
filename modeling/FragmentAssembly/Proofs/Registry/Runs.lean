/-
FragmentAssembly/Proofs/Registry/Runs.lean

Runs.  Honest actions lead from a reachable registry to reachable ones, however many there
are (`Reachable.performAll`), and a text that declares a name is always good for one more
fragment (`Reachable.write`).

A session does more than act on one registry: it keeps copies, goes back to them, and
registers again what any of its steps made.  All the same it never holds a registry that
actions alone would not lead to (`Session.reachable_after`): a copy is the registry that was
copied, and what a step made is honest to register.
-/
import FragmentAssembly.Header.Lemmas
import FragmentAssembly.Proofs.Registry.Adding
import FragmentAssembly.Registry.Reachable
import FragmentAssembly.Session
import FragmentAssembly.Spread.Lemmas

namespace FragmentAssembly

/-! ### Runs of actions -/

namespace Registry

variable {r : Registry}

theorem perform_add (r : Registry) (input : FragmentInput) :
    r.perform (.add input) =
      (⟨.added (r.add input).1.outcome, (r.add input).1.events⟩, (r.add input).2) := rfl

theorem perform_load (r : Registry) (files : FileTree) (path : String) :
    r.perform (.load files path) =
      (⟨.loaded (r.load files path).1.outcome, (r.load files path).1.events⟩,
        (r.load files path).2) := rfl

theorem Reachable.performAll (h : r.Reachable) {actions : List Action}
    (honest : ∀ action ∈ actions, action.Honest) : (r.performAll actions).2.Reachable := by
  induction actions generalizing r with
  | nil => exact h
  | cons action actions ih =>
    rw [performAll_cons]
    refine ih (h.perform (honest action List.mem_cons_self)) fun a ha => ?_
    exact honest a (List.mem_cons_of_mem _ ha)

/-- A text that declares a name is registered under it, with the spreads that stand in it; both
are read off its characters. -/
theorem perform_text (r : Registry) (f : Fragment)
    (hname : (Header.first? f.definition.toList).map String.ofList = some f.name)
    (hspreads : (Spread.all f.definition.toList).map String.ofList = f.spreads) :
    r.perform (.add (.text f.definition)) =
      (⟨.added (.ok f), r.registerEvents f⟩, r.register f) := by
  rw [← Header.name?_eq_first?] at hname
  rw [← Spread.ofText_eq_all] at hspreads
  rw [perform, add, addText_of_declared hname, define,
    ← Fragment.Tracked.eq_define hspreads.symm]

/-- A text that declares a name can be registered under it, with the spreads that stand in
it; both are read off its characters. -/
theorem Reachable.write (h : r.Reachable) {name definition : String} {spreads : List String}
    (hname : (Header.first? definition.toList).map String.ofList = some name)
    (hspreads : (Spread.all definition.toList).map String.ofList = spreads) :
    (r.register ⟨name, definition, spreads⟩).Reachable := by
  have honest : (Action.add (.text definition)).Honest := trivial
  have hstep := h.perform honest
  rw [r.perform_text ⟨name, definition, spreads⟩ hname hspreads] at hstep
  exact hstep

/-- A draft that has a type but neither a header nor a name can be registered under the free
name for its type. -/
theorem Reachable.derive (h : r.Reachable) {definition typeName chosen : String} {s : Registry}
    (hleads : Header.leads definition = false)
    (hfree : r.freeName (derivedName typeName) = (chosen, s)) :
    (s.register (.define chosen (headed chosen typeName definition))).Reachable := by
  have honest : (Action.add (.draft ⟨definition, none, some typeName⟩)).Honest := trivial
  have hstep := h.perform honest
  obtain ⟨-, hadd⟩ := add_derived (r := r) (d := ⟨definition, none, some typeName⟩) rfl rfl hleads
    hfree
  rw [Registry.perform, hadd] at hstep
  exact hstep

/-- A draft that has no header can be registered under any name that it is given. -/
theorem Reachable.give (h : r.Reachable) {definition typeName given : String}
    (hleads : Header.leads definition = false) :
    (r.register (.define given (headed given typeName definition))).Reachable := by
  have honest : (Action.add (.draft ⟨definition, some given, some typeName⟩)).Honest := trivial
  have hstep := h.perform honest
  obtain ⟨-, hadd⟩ := add_given (r := r) (d := ⟨definition, some given, some typeName⟩) rfl rfl
    hleads
  rw [Registry.perform, hadd] at hstep
  exact hstep

/-! ### Fragments as answers -/

section Answers

variable {f : Fragment}

theorem answered_add_iff {input : FragmentInput} :
    (r.perform (.add input)).1.answer.fragment? = some f ↔ (r.add input).1.outcome = .ok f := by
  rw [perform_add]
  rcases (r.add input).1.outcome with e | g <;> simp [Answer.fragment?]

theorem answered_load_iff {files : FileTree} {path : String} :
    (r.perform (.load files path)).1.answer.fragment? = some f ↔
      (r.load files path).1.outcome = .ok f := by
  rw [perform_load]
  rcases (r.load files path).1.outcome with e | g <;> simp [Answer.fragment?]

/-- A fragment that is read from a file is made from its text. -/
theorem addText_of_load {files : FileTree} {path : String}
    (h : (r.load files path).1.outcome = .ok f) :
    ∃ content, files.read path = .ok content ∧
      (r.addText (Text.trimEnd content)).1.outcome = .ok f := by
  unfold load at h
  split at h
  · cases h
  · rename_i content hread
    refine ⟨content, hread, ?_⟩
    have hout : (r.addText (Text.trimEnd content)).1.outcome.mapError LoadError.refused =
        .ok f := h
    rcases hadd : (r.addText (Text.trimEnd content)).1.outcome with e | g
    · rw [hadd] at hout
      cases hout
    · rw [hadd] at hout
      cases hout
      rfl

/-- A fragment that an action answers with was made. -/
theorem made_of_answer {action : Action}
    (h : (r.perform action).1.answer.fragment? = some f) : f.Made := by
  cases action with
  | add input => exact ⟨r, input, answered_add_iff.1 h⟩
  | load files path =>
    obtain ⟨content, -, hadd⟩ := addText_of_load (answered_load_iff.1 h)
    exact ⟨r, .text (Text.trimEnd content), hadd⟩
  | register _ | reset | lookup _ | resolve _ | assemble _ _ => cases h

end Answers

end Registry

/-! ### Sessions -/

namespace Session

/-- The session after some steps. -/
def after (s : Session) : List Step → Session
  | [] => s
  | step :: rest => (s.step step).2.after rest

/-- Everything that a session holds comes from actions: its registry, the fragments that its
steps made, and the copies that it keeps. -/
structure Sound (s : Session) : Prop where
  registry : s.registry.Reachable
  made : ∀ f, some f ∈ s.made → f.Made
  snapshots : ∀ r ∈ s.snapshots, r.Reachable

theorem sound_start : start.Sound :=
  ⟨.empty, by simp [start], by simp [start]⟩

variable {s : Session}

theorem Sound.withRegistry (h : s.Sound) {r : Registry} (hr : r.Reachable) :
    (s.withRegistry r).Sound :=
  ⟨hr, h.made, h.snapshots⟩

/-- What a step did: a sound session, and a fragment that was made, if there is one. -/
def Result (result : (StepAnswer × List Event × Option Fragment) × Session) : Prop :=
  result.2.Sound ∧ ∀ f, result.1.2.2 = some f → f.Made

theorem Sound.answer (h : s.Sound) (a : StepAnswer) : Result (s.answer a) :=
  ⟨h, fun _ hf => by cases hf⟩

theorem Sound.actAndAnswer (h : s.Sound) {action : Action} (honest : action.Honest) :
    Result (s.actAndAnswer action) :=
  ⟨h.withRegistry (h.registry.perform honest), fun _ hf => Registry.made_of_answer hf⟩

theorem Sound.actAndCount (h : s.Sound) {actions : List Action}
    (honest : ∀ action ∈ actions, action.Honest) : Result (s.actAndCount actions) :=
  ⟨h.withRegistry (h.registry.performAll honest), fun _ hf => by cases hf⟩

theorem Sound.perform (h : s.Sound) (step : Step) : Result (s.perform step) := by
  cases step with
  | add input => exact h.actAndAnswer trivial
  | load path content =>
    have hfile : (s.writeFile path content).Sound := by
      cases content <;> exact ⟨h.registry, h.made, h.snapshots⟩
    exact hfile.actAndAnswer trivial
  | register step =>
    simp only [Session.perform]
    split
    · exact h.answer _
    · rename_i f hf
      refine h.actAndCount fun action haction => ?_
      obtain rfl := List.mem_singleton.1 haction
      exact h.made f (Array.mem_of_getElem? (Option.join_eq_some_iff.1 hf))
  | chain stem count =>
    refine h.actAndCount fun action haction => ?_
    obtain ⟨text, -, rfl⟩ := List.mem_map.1 haction
    trivial
  | lookup name => exact h.actAndAnswer trivial
  | list => exact h.answer _
  | resolve names => exact h.actAndAnswer trivial
  | assemble kind input => exact h.actAndAnswer trivial
  | reset =>
    refine h.actAndCount fun action haction => ?_
    obtain rfl := List.mem_singleton.1 haction
    trivial
  | isNew => exact h.answer _
  | snapshot =>
    refine ⟨⟨h.registry, h.made, fun r hr => ?_⟩, fun _ hf => by cases hf⟩
    rcases Array.mem_push.1 hr with hr | rfl
    · exact h.snapshots r hr
    · exact h.registry
  | equals snapshot =>
    simp only [Session.perform]
    split <;> exact h.answer _
  | restore snapshot =>
    simp only [Session.perform]
    split
    · exact h.answer _
    · rename_i r hr
      -- going back to a copy, and doing nothing with it
      exact (h.withRegistry (h.snapshots r (Array.mem_of_getElem? hr))).actAndCount (by simp)

theorem Sound.step (h : s.Sound) (step : Step) : (s.step step).2.Sound := by
  obtain ⟨hsound, hmade⟩ := h.perform step
  refine ⟨hsound.registry, fun f hf => ?_, hsound.snapshots⟩
  rcases Array.mem_push.1 hf with hf | hf
  · exact hsound.made f hf
  · exact hmade f hf.symm

theorem Sound.after (h : s.Sound) (steps : List Step) : (s.after steps).Sound := by
  induction steps generalizing s with
  | nil => exact h
  | cons step steps ih => exact ih (h.step step)

/-- A session holds no registry that actions alone would not lead to, whatever copies it keeps
and goes back to. -/
theorem reachable_after (steps : List Step) : (start.after steps).registry.Reachable :=
  (sound_start.after steps).registry

end Session

end FragmentAssembly
