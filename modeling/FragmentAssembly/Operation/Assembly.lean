/-
FragmentAssembly/Operation/Assembly.lean

Assembling an operation: its definition, followed by the definition of every fragment
that it needs, each on a new line, in the order in which they are collected.  The
registry is only read.
-/
import FragmentAssembly.Operation.Draft
import FragmentAssembly.Resolution.Walk

namespace FragmentAssembly

/-- An assembled operation. -/
structure Operation where
  kind : OperationKind
  name : Option String
  definition : String
  spreads : List String
  document : String
deriving DecidableEq, Repr

/-- Why an operation cannot be assembled. -/
inductive OperationError where
  /-- It needs a fragment that is not registered. -/
  | unresolved (reference : UndefinedReference)
deriving DecidableEq, Repr

/-- The undefined reference behind a failure. -/
def OperationError.reference : OperationError → UndefinedReference
  | unresolved reference => reference

/-- The wording of a failure. -/
def OperationError.message (e : OperationError) : String :=
  "Unable to resolve the fragments used by this operation: " ++ e.reference.message

/-- A definition and the definitions of fragments, each on a new line. -/
def document (definition : String) (fragments : List Fragment) : String :=
  definition ++ String.join (fragments.map fun f => "\n" ++ f.definition)

/-- Assembles an operation from the fragments of a registry. -/
def Registry.assemble (r : Registry) (kind : OperationKind) (input : OperationInput) :
    Logged OperationError Operation := do
  let definition := input.definition kind
  let spreads := Spread.ofText definition
  let fragments ← (r.resolve spreads).mapError .unresolved
  Logged.log (.built kind input.name? fragments.length)
  return ⟨kind, input.name?, definition, spreads, document definition fragments⟩

/-- What an assembly answers: the document of the resolved fragments, or what could not
be resolved. -/
theorem Registry.outcome_assemble (r : Registry) (kind : OperationKind) (input : OperationInput) :
    (r.assemble kind input).outcome =
      (((r.resolve (Spread.ofText (input.definition kind))).outcome.mapError
          OperationError.unresolved).map fun fragments =>
        ⟨kind, input.name?, input.definition kind, Spread.ofText (input.definition kind),
          document (input.definition kind) fragments⟩) := by
  simp only [Registry.assemble, Logged.outcome_bind, Logged.outcome_mapError, Logged.outcome_log,
    Logged.outcome_pure]
  cases (r.resolve (Spread.ofText (input.definition kind))).outcome <;> rfl

end FragmentAssembly
