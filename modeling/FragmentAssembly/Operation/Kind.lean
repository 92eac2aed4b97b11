/-
FragmentAssembly/Operation/Kind.lean

The three kinds of operation, and the word by which each is written.  Different kinds
have different words (`OperationKind.ofWord?_word`), and only the lower-case words
count.
-/

namespace FragmentAssembly

/-- The kind of an operation. -/
inductive OperationKind where
  | query
  | mutation
  | subscription
deriving DecidableEq, Repr, Inhabited

namespace OperationKind

/-- The word that opens an operation of this kind. -/
def word : OperationKind → String
  | query => "query"
  | mutation => "mutation"
  | subscription => "subscription"

/-- The kind that a word names. -/
def ofWord? : String → Option OperationKind
  | "query" => some query
  | "mutation" => some mutation
  | "subscription" => some subscription
  | _ => none

@[simp] theorem ofWord?_word (kind : OperationKind) : ofWord? kind.word = some kind := by
  cases kind <;> rfl

end OperationKind

end FragmentAssembly
