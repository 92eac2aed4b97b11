/-
FragmentAssembly/Registry/Add.lean

Adding fragments to a registry.  A fragment is given either as the text of a whole
definition or as a draft, whose definition may be a selection set that still lacks its
header.

* A text is kept as it is, under the name that it declares.
* A draft that leads with its own header is kept as it is too; if it is also given a
  name, the two must agree.
* Any other draft gets a header of its name and type.  Without a name it takes one
  that is derived from its type, and such a name never replaces a fragment.

A given name, and a declared one, replaces the fragment that had it before.
-/
import FragmentAssembly.Header.Search
import FragmentAssembly.Log.Logged
import FragmentAssembly.Registry.Naming

namespace FragmentAssembly

/-- A fragment under construction. -/
structure FragmentDraft where
  definition : String
  name : Option String := none
  typeName : Option String := none
deriving DecidableEq, Repr

namespace FragmentDraft

/-- The draft with the given name, in place of one given before. -/
def withName (d : FragmentDraft) (name : String) : FragmentDraft :=
  { d with name := some name }

/-- The draft on the given type, in place of one given before. -/
def withType (d : FragmentDraft) (typeName : String) : FragmentDraft :=
  { d with typeName := some typeName }

/-- One thing that can be said about a fragment under construction. -/
inductive Setting where
  | name (name : String)
  | type (typeName : String)
deriving DecidableEq, Repr

/-- The draft with one more thing said about it. -/
def set (d : FragmentDraft) : Setting → FragmentDraft
  | .name name => d.withName name
  | .type typeName => d.withType typeName

/-- The draft of a definition, with things said about it one after another. -/
def ofSettings (definition : String) (settings : List Setting) : FragmentDraft :=
  settings.foldl set ⟨definition, none, none⟩

end FragmentDraft

/-- What a fragment is made from. -/
inductive FragmentInput where
  /-- The text of a whole definition. -/
  | text (definition : String)
  /-- A draft. -/
  | draft (draft : FragmentDraft)
deriving DecidableEq, Repr

/-- Why a fragment is refused. -/
inductive FragmentError where
  /-- The given name is not the one that the definition declares. -/
  | conflictingName (given declared : String)
  /-- Nothing gives the fragment a name. -/
  | nameless (definition : String)
  /-- There is no type to put into the header. -/
  | typeless (name : String)
deriving DecidableEq, Repr

/-- The wording of a refusal. -/
def FragmentError.message : FragmentError → String
  | conflictingName given declared =>
    s!"The fragment was named `{given}`, but its definition declares `fragment {declared}`"
  | nameless definition =>
    "Unable to determine a name for this fragment. Specify a name, a type condition, or " ++
      s!"include a `fragment <Name> on <Type>` header in the definition: `{definition}`"
  | typeless name =>
    "Fragments must specify the type for which they apply to, but none was specified for " ++
      s!"the `{name}` fragment."

/-- A definition with a header in front of it. -/
def headed (name typeName definition : String) : String :=
  "fragment " ++ name ++ " on " ++ typeName ++ " " ++ definition

namespace Registry

/-- What is logged when a fragment is registered. -/
def registerEvents (r : Registry) (f : Fragment) : List Event :=
  .registering f.name f.spreads :: if r.contains f.name then [.replaced] else []

/-- What is logged when a name is found for a base. -/
def renameEvents (base chosen : String) : List Event :=
  if chosen = base then [] else [.renamed base chosen]

/-- Registers a definition under a name, as it is. -/
def define (r : Registry) (name definition : String) :
    Logged FragmentError Fragment × Registry :=
  let f := Fragment.define name definition
  (⟨r.registerEvents f, .ok f⟩, r.register f)

/-- The name for a draft that has no header: the given one, or one derived from the type.
A derived name may change what the registry remembers. -/
def nameFor? (r : Registry) (d : FragmentDraft) : Option String × Registry :=
  match d.name, d.typeName with
  | some name, _ => (some name, r)
  | none, some typeName =>
    let (chosen, r) := r.freeName (derivedName typeName)
    (some chosen, r)
  | none, none => (none, r)

/-- What is logged when a draft that has no header gets a name. -/
def nameEvents (d : FragmentDraft) (chosen : String) : List Event :=
  match d.name, d.typeName with
  | none, some typeName => renameEvents (derivedName typeName) chosen
  | _, _ => []

/-- Registers the text of a whole definition under the name that it declares. -/
def addText (r : Registry) (definition : String) : Logged FragmentError Fragment × Registry :=
  match Header.name? definition with
  | none => (.ofExcept (.error (.nameless definition)), r)
  | some declared => r.define declared definition

/-- Registers a draft that leads with its own header. -/
def addHeaded (r : Registry) (d : FragmentDraft) : Logged FragmentError Fragment × Registry :=
  match Header.name? d.definition with
  | none => (.ofExcept (.error (.nameless d.definition)), r)
  | some declared =>
    match d.name with
    | none => r.define declared d.definition
    | some given =>
      if given = declared then r.define declared d.definition
      else (.ofExcept (.error (.conflictingName given declared)), r)

/-- Registers a draft that has no header, under a header of its name and type. -/
def addBare (r : Registry) (d : FragmentDraft) : Logged FragmentError Fragment × Registry :=
  match r.nameFor? d with
  | (none, r) => (.ofExcept (.error (.nameless d.definition)), r)
  | (some name, r) =>
    -- only a given name gets this far without a type: a derived one comes from the type
    match d.typeName with
    | none => (.ofExcept (.error (.typeless name)), r)
    | some typeName =>
      let (added, r) := r.define name (headed name typeName d.definition)
      (⟨nameEvents d name ++ added.events, added.outcome⟩, r)

/-- Makes a fragment and registers it.  The registry is the one after the attempt, whether
it succeeds or not. -/
def add (r : Registry) : FragmentInput → Logged FragmentError Fragment × Registry
  | .text definition => r.addText definition
  | .draft d => if Header.leads d.definition then r.addHeaded d else r.addBare d

/-! ### What the steps answer -/

@[simp] theorem outcome_define (r : Registry) (name definition : String) :
    (r.define name definition).1.outcome = .ok (Fragment.define name definition) := rfl

@[simp] theorem registry_define (r : Registry) (name definition : String) :
    (r.define name definition).2 = r.register (Fragment.define name definition) := rfl

theorem addText_of_declared {r : Registry} {definition declared : String}
    (h : Header.name? definition = some declared) :
    r.addText definition = r.define declared definition := by
  simp [addText, h]

end Registry

end FragmentAssembly
