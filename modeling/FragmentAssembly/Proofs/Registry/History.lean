/-
FragmentAssembly/Proofs/Registry/History.lean

What a registry shows is told by what was done with it.  The history of a run
(`Registry.history`) lists every action with its answer, the latest first; from it alone one
reads which fragments came into the registry since it was last emptied
(`storedSinceReset`), and which of them is the latest of a name (`latest?`).

One action other than a reset changes what stands under the name of the fragment that it
stores, and nothing else (`lookup?_perform`).  So after a run a name gives the latest fragment
of that name, and before there was one it gives what it gave at the beginning
(`lookup?_performAll`).  No fragment leaves a registry unless all of them do
(`contains_performAll`).  From the empty registry on this is all there is to know about a lookup
(`lookup_answers_latest`).
-/
import FragmentAssembly.Proofs.Registry.Runs
import Mathlib.Data.List.Induction

namespace FragmentAssembly

/-! ### Exchanges -/

/-- Whether an action empties the registry. -/
def Action.isReset : Action → Bool
  | reset => true
  | _ => false

/-- An action, and what it answered. -/
structure Exchange where
  action : Action
  answer : Answer

/-- The fragment that an exchange put into the registry, if it put one there. -/
def Exchange.stored? : Exchange → Option Fragment
  | ⟨.register f, _⟩ => some f
  | ⟨_, answer⟩ => answer.fragment?

/-- The fragments that were put into a registry since it was last emptied, the latest first, as
its history tells. -/
def storedSinceReset (history : List Exchange) : List Fragment :=
  (history.takeWhile (!·.action.isReset)).filterMap Exchange.stored?

/-- The latest of the fragments of a name that were put into a registry since it was last
emptied. -/
def latest? (history : List Exchange) (name : String) : Option Fragment :=
  (storedSinceReset history).find? (·.name = name)

theorem isReset_iff {action : Action} : action.isReset = true ↔ action = .reset := by
  cases action <;> simp [Action.isReset]

@[simp] theorem stored?_add (input : FragmentInput) (outcome : Except FragmentError Fragment) :
    (Exchange.mk (.add input) (.added outcome)).stored? = outcome.toOption := by
  cases outcome <;> rfl

@[simp] theorem stored?_load (files : FileTree) (path : String)
    (outcome : Except LoadError Fragment) :
    (Exchange.mk (.load files path) (.loaded outcome)).stored? = outcome.toOption := by
  cases outcome <;> rfl

/-- A reset hides what came before it. -/
theorem latest?_cons_of_reset {x : Exchange} (h : x.action.isReset = true)
    (history : List Exchange) (name : String) : latest? (x :: history) name = none := by
  rw [latest?, storedSinceReset, List.takeWhile_cons_of_neg (by simp [h])]
  rfl

/-- A fragment hides the earlier ones of its name. -/
theorem latest?_cons {x : Exchange} (h : x.action.isReset = false) (history : List Exchange)
    (name : String) :
    latest? (x :: history) name =
      (x.stored?.filter (·.name = name)).or (latest? history name) := by
  rw [latest?, storedSinceReset, List.takeWhile_cons_of_pos (by simp [h]), List.filterMap_cons]
  cases x.stored? with
  | none => rfl
  | some f =>
    rw [List.find?_cons, Option.filter_some]
    cases decide (f.name = name) <;> rfl

namespace Registry

variable {r s : Registry} {name : String}

/-! ### One action -/

theorem lookup?_congr (h : s.fragments = r.fragments) (name : String) :
    s.lookup? name = r.lookup? name := by
  rw [lookup?, lookup?, h]

theorem lookup?_register_eq_or (r : Registry) (f : Fragment) (name : String) :
    (r.register f).lookup? name = ((some f).filter (·.name = name)).or (r.lookup? name) := by
  rw [lookup?_register, Option.filter_some]
  by_cases h : f.name = name <;> simp [h]

/-- What is added stands under its name afterwards, and every other name gives what it gave. -/
theorem Adds.lookup?_eq {ε : Type} {outcome : Except ε Fragment} (h : r.Adds outcome s)
    (name : String) :
    s.lookup? name = (outcome.toOption.filter (·.name = name)).or (r.lookup? name) := by
  cases h with
  | refused e => rfl
  | defined own definition => exact lookup?_register_eq_or r _ name
  | derived base definition =>
    rw [lookup?_register_eq_or, lookup?_congr (fragments_freeName r base)]
    rfl

/-- What one action changes: the name of the fragment that it stores. -/
theorem lookup?_perform {action : Action} (h : action.isReset = false) (r : Registry)
    (name : String) :
    (r.perform action).2.lookup? name =
      ((Exchange.mk action (r.perform action).1.answer).stored?.filter (·.name = name)).or
        (r.lookup? name) := by
  cases action with
  | add input => rw [perform_add, (r.adds_add input).lookup?_eq, stored?_add]
  | load files path => rw [perform_load, (r.adds_load files path).lookup?_eq, stored?_load]
  | register f => exact lookup?_register_eq_or r f name
  | reset => cases h
  | lookup _ | resolve _ | assemble _ _ => rfl

/-! ### Runs -/

/-- What was done in a run, the latest first. -/
def history (r : Registry) (actions : List Action) : List Exchange :=
  (List.zipWith Exchange.mk actions ((r.performAll actions).1.map Reply.answer)).reverse

theorem length_performAll (r : Registry) (actions : List Action) :
    (r.performAll actions).1.length = actions.length := by
  induction actions generalizing r with
  | nil => rfl
  | cons action actions ih => rw [performAll_cons, List.length_cons, List.length_cons, ih]

theorem performAll_concat (r : Registry) (actions : List Action) (action : Action) :
    r.performAll (actions ++ [action]) =
      ((r.performAll actions).1 ++ [((r.performAll actions).2.perform action).1],
        ((r.performAll actions).2.perform action).2) :=
  performAll_append r actions [action]

theorem history_concat (r : Registry) (actions : List Action) (action : Action) :
    r.history (actions ++ [action]) =
      ⟨action, ((r.performAll actions).2.perform action).1.answer⟩ :: r.history actions := by
  rw [history, performAll_concat, List.map_append,
    List.zipWith_append (by rw [List.length_map, length_performAll]), List.reverse_append]
  rfl

/-- After a run a name gives the latest fragment of that name.  Without one it gives what it
gave at the beginning, unless the registry was emptied since. -/
theorem lookup?_performAll (r : Registry) (actions : List Action) (name : String) :
    (r.performAll actions).2.lookup? name =
      (latest? (r.history actions) name).or
        (if actions.any Action.isReset then none else r.lookup? name) := by
  induction actions using List.reverseRecOn with
  | nil => rfl
  | append_singleton actions action ih =>
    rw [performAll_concat, history_concat, List.any_append]
    cases h : action.isReset with
    | true =>
      obtain rfl := isReset_iff.1 h
      rw [latest?_cons_of_reset h]
      simp [perform, h]
    | false =>
      rw [latest?_cons h, lookup?_perform h, ih, Option.or_assoc]
      simp [h]

/-- After a run that begins with nothing, a name gives the latest fragment of that name. -/
theorem lookup?_performAll_empty (actions : List Action) (name : String) :
    (empty.performAll actions).2.lookup? name = latest? (empty.history actions) name := by
  rw [lookup?_performAll, lookup?_empty, ite_self, Option.or_none]

/-- In a run without a reset, a name for which there is no new fragment gives what it gave. -/
theorem lookup?_performAll_of_notMem {actions : List Action} (h : Action.reset ∉ actions)
    (r : Registry) (name : String) :
    (r.performAll actions).2.lookup? name =
      (latest? (r.history actions) name).or (r.lookup? name) := by
  have hnone : actions.any Action.isReset = false := by
    rw [List.any_eq_false]
    intro action haction hreset
    rw [isReset_iff.1 hreset] at haction
    exact h haction
  rw [lookup?_performAll, hnone]
  rfl

/-- In a run without a reset, a name under which nothing is stored gives what it gave. -/
theorem lookup?_performAll_of_not_stored {actions : List Action} (h : Action.reset ∉ actions)
    (hstored : ∀ f ∈ storedSinceReset (r.history actions), f.name ≠ name) :
    (r.performAll actions).2.lookup? name = r.lookup? name := by
  have hnone : latest? (r.history actions) name = none := by
    rw [latest?, List.find?_eq_none]
    exact fun f hf => by simpa using hstored f hf
  rw [lookup?_performAll_of_notMem h, hnone, Option.none_or]

/-- Without a reset, taken names stay taken. -/
theorem contains_performAll {actions : List Action} (h : Action.reset ∉ actions)
    (hin : r.contains name = true) : (r.performAll actions).2.contains name = true := by
  rw [contains_eq_isSome] at hin ⊢
  rw [lookup?_performAll_of_notMem h, Option.isSome_or, hin, Bool.or_true]

/-! ### The last fragment of a name -/

/-- After any run from the empty registry, every fragment stands under its own name and keeps
the spreads of its own text; and a lookup answers the latest fragment of the name since the last
reset, or that there is none. -/
theorem lookup_answers_latest {actions : List Action}
    (honest : ∀ action ∈ actions, action.Honest) :
    (∀ name f, (empty.performAll actions).2.lookup? name = some f →
        f.name = name ∧ f.spreads = Spread.ofText f.definition) ∧
      ∀ name, ((empty.performAll actions).2.perform (.lookup name)).1.answer =
        .found name (latest? (empty.history actions) name) := by
  have hreach : (empty.performAll actions).2.Reachable := Reachable.empty.performAll honest
  refine ⟨fun name f hf => ⟨name_of_lookup? hf, hreach.tracked name f hf⟩, fun name => ?_⟩
  show Answer.found name ((empty.performAll actions).2.lookup? name) = _
  rw [lookup?_performAll_empty]

/-- A run that forgets one fragment by a reset and writes another one twice, the second time by
registering what was made elsewhere.  At the end a text without a name is refused. -/
def rewritten : List Action :=
  [.add (.text "fragment A on T { ...B }"), .reset, .add (.text "fragment B on T { b }"),
    .register ⟨"B", "fragment B on T { ...C }", ["C"]⟩, .add (.text "{ ...B }")]

theorem honest_rewritten : ∀ action ∈ rewritten, action.Honest := by
  have hmade : Fragment.Made ⟨"B", "fragment B on T { ...C }", ["C"]⟩ := by
    refine ⟨empty, .text "fragment B on T { ...C }", ?_⟩
    have hstep := empty.perform_text ⟨"B", "fragment B on T { ...C }", ["C"]⟩
      (by decide) (by decide)
    injection congrArg (fun result => result.1.answer) hstep
  simp [rewritten, Action.Honest, hmade]

theorem answers_rewritten :
    (empty.performAll rewritten).1.map Reply.answer =
      [.added (.ok ⟨"A", "fragment A on T { ...B }", ["B"]⟩), .done,
        .added (.ok ⟨"B", "fragment B on T { b }", []⟩), .done,
        .added (.error (.nameless "{ ...B }"))] := by
  have hnone : Header.name? "{ ...B }" = none := by
    rw [Header.name?_eq_first?]
    decide
  rw [rewritten, performAll_cons,
    perform_text _ ⟨"A", "fragment A on T { ...B }", ["B"]⟩ (by decide) (by decide),
    performAll_cons, performAll_cons,
    perform_text _ ⟨"B", "fragment B on T { b }", []⟩ (by decide) (by decide)]
  simp [performAll, perform, add, addText, hnone]

theorem lookup_answers_latest_rewritten :
    (∀ action ∈ rewritten, action.Honest) ∧
      ((empty.performAll rewritten).2.perform (.lookup "A")).1.answer = .found "A" none ∧
      ((empty.performAll rewritten).2.perform (.lookup "B")).1.answer =
        .found "B" (some ⟨"B", "fragment B on T { ...C }", ["C"]⟩) := by
  obtain ⟨-, hlookup⟩ := lookup_answers_latest honest_rewritten
  refine ⟨honest_rewritten, ?_, ?_⟩
  · rw [hlookup, history, answers_rewritten]
    rfl
  · rw [hlookup, history, answers_rewritten]
    rfl

end Registry

end FragmentAssembly
