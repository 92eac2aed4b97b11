/-
FragmentAssembly/Registry/Action.lean

Everything that can be done with a registry, as values: an action, its answer, and the
registry after it (`Registry.perform`).  A run of actions (`Registry.performAll`) hands
the registry of each to the next.
-/
import FragmentAssembly.Operation.Assembly
import FragmentAssembly.Registry.Load

namespace FragmentAssembly

/-- Something done with a registry. -/
inductive Action where
  /-- Make a fragment and register it. -/
  | add (input : FragmentInput)
  /-- Read a fragment from a file and register it. -/
  | load (files : FileTree) (path : String)
  /-- Register a fragment that was made before. -/
  | register (fragment : Fragment)
  /-- Forget every fragment and every number. -/
  | reset
  /-- Look a fragment up. -/
  | lookup (name : String)
  /-- Collect the fragments that names need. -/
  | resolve (names : List String)
  /-- Assemble an operation. -/
  | assemble (kind : OperationKind) (input : OperationInput)

/-- What an action answers. -/
inductive Answer where
  /-- It is done. -/
  | done
  /-- A fragment was made. -/
  | added (outcome : Except FragmentError Fragment)
  /-- A fragment was read. -/
  | loaded (outcome : Except LoadError Fragment)
  /-- A fragment was looked up. -/
  | found (name : String) (fragment : Option Fragment)
  /-- Fragments were collected. -/
  | resolved (outcome : Except UndefinedReference (List Fragment))
  /-- An operation was assembled. -/
  | assembled (outcome : Except OperationError Operation)

/-- The wording for a name under which nothing is registered. -/
def undefinedFragmentMessage (name : String) : String :=
  s!"No fragment named `{name}` has been registered"

/-- The fragment that an action put into the registry, if it made one. -/
def Answer.fragment? : Answer → Option Fragment
  | added (.ok f) => some f
  | loaded (.ok f) => some f
  | _ => none

/-- An answer, and what was logged before it. -/
structure Reply where
  answer : Answer
  events : List Event

namespace Registry

/-- Does one action. -/
def perform (r : Registry) : Action → Reply × Registry
  | .add input =>
    let (added, r) := r.add input
    (⟨.added added.outcome, added.events⟩, r)
  | .load files path =>
    let (loaded, r) := r.load files path
    (⟨.loaded loaded.outcome, loaded.events⟩, r)
  | .register f => (⟨.done, r.registerEvents f⟩, r.register f)
  | .reset => (⟨.done, []⟩, empty)
  | .lookup name => (⟨.found name (r.lookup? name), []⟩, r)
  | .resolve names =>
    let resolved := r.resolve names
    (⟨.resolved resolved.outcome, resolved.events⟩, r)
  | .assemble kind input =>
    let assembled := r.assemble kind input
    (⟨.assembled assembled.outcome, assembled.events⟩, r)

/-- Does actions one after another. -/
def performAll (r : Registry) : List Action → List Reply × Registry
  | [] => ([], r)
  | action :: rest =>
    let (reply, r) := r.perform action
    let (replies, r) := r.performAll rest
    (reply :: replies, r)

theorem performAll_cons (r : Registry) (action : Action) (rest : List Action) :
    r.performAll (action :: rest) =
      ((r.perform action).1 :: ((r.perform action).2.performAll rest).1,
        ((r.perform action).2.performAll rest).2) := rfl

theorem performAll_append (r : Registry) (actions more : List Action) :
    r.performAll (actions ++ more) =
      ((r.performAll actions).1 ++ ((r.performAll actions).2.performAll more).1,
        ((r.performAll actions).2.performAll more).2) := by
  induction actions generalizing r with
  | nil => rfl
  | cons action actions ih => simp only [List.cons_append, performAll_cons, ih]

end Registry

end FragmentAssembly
