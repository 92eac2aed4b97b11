/-
FragmentAssembly/Operation/Draft.lean

Operations before they are assembled.  An operation is given either as a whole text or
as a draft: a body, and perhaps a name and variables, of which a header is made.  An
empty name is no name.  With neither a name nor variables there is no header, and the
draft is its body.
-/
import FragmentAssembly.Operation.Kind
import FragmentAssembly.Operation.Variable

namespace FragmentAssembly

/-- An operation under construction. -/
structure OperationDraft where
  body : String
  name : Option String := none
  declared : List Variable := []
deriving DecidableEq, Repr

namespace OperationDraft

/-- The draft with the given name, in place of one given before. -/
def withName (d : OperationDraft) (name : String) : OperationDraft :=
  { d with name := some name }

/-- The draft with one more declaration. -/
def withVariable (d : OperationDraft) (v : Variable) : OperationDraft :=
  { d with declared := Variable.declare d.declared v }

/-- The draft with the given declarations, in place of all those made before. -/
def withVariables (d : OperationDraft) (vs : List Variable) : OperationDraft :=
  { d with declared := Variable.ofList vs }

/-- One thing that can be said about an operation under construction. -/
inductive Setting where
  | name (name : String)
  | oneMore (v : Variable)
  | allAnew (vs : List Variable)
deriving DecidableEq, Repr

/-- The draft with one more thing said about it. -/
def set (d : OperationDraft) : Setting → OperationDraft
  | .name name => d.withName name
  | .oneMore v => d.withVariable v
  | .allAnew vs => d.withVariables vs

/-- The draft of a body, with things said about it one after another. -/
def ofSettings (body : String) (settings : List Setting) : OperationDraft :=
  settings.foldl set ⟨body, none, []⟩

/-- The name of the operation; an empty one does not count. -/
def givenName? (d : OperationDraft) : Option String :=
  d.name.filter (!·.isEmpty)

/-- The variables between parentheses, or nothing if there are none. -/
def parameters (vs : List Variable) : String :=
  if vs.isEmpty then "" else "(" ++ ", ".intercalate (vs.map Variable.text) ++ ") "

/-- The kind and the name.  Without a name the kind is written only in front of
variables. -/
def opening (kind : OperationKind) (name? : Option String) (vs : List Variable) : String :=
  match name? with
  | some name => kind.word ++ " " ++ name ++ " "
  | none => if vs.isEmpty then "" else kind.word ++ " "

/-- The header: the kind, the name and the variables, as far as there are any. -/
def header (kind : OperationKind) (d : OperationDraft) : String :=
  opening kind d.givenName? d.declared ++ parameters d.declared

end OperationDraft

/-- What an operation is made from. -/
inductive OperationInput where
  /-- The text of a whole operation. -/
  | text (definition : String)
  /-- A draft. -/
  | draft (draft : OperationDraft)
deriving DecidableEq, Repr

namespace OperationInput

/-- The name under which the operation is known. -/
def name? : OperationInput → Option String
  | text _ => none
  | draft d => d.givenName?

/-- The text of the operation itself, without the fragments. -/
def definition (kind : OperationKind) : OperationInput → String
  | text definition => definition
  | draft d => d.header kind ++ d.body

end OperationInput

end FragmentAssembly
