/-
FragmentAssembly/Log/Event.lean

What can be logged.  An event is a cause with the values that it concerns; its level
and its wording are functions of the cause (`Event.level`, `Event.message`), so the
wording of every log line stands in this one place.
-/
import FragmentAssembly.Log.Level
import FragmentAssembly.Operation.Kind
import FragmentAssembly.Text.Terminal

namespace FragmentAssembly

open Text (Quoted.encode Quoted.encodeList)

/-- Something worth a log line. -/
inductive Event where
  /-- The level with which the program starts. -/
  | levelSet (level : LogLevel)
  /-- The setting of the level, blanks trimmed, names no level. -/
  | levelUnknown (setting : String)
  /-- A resolution met a fragment that it has already collected. -/
  | alreadyCollected (name : String)
  /-- A fragment is put into the registry. -/
  | registering (name : String) (spreads : List String)
  /-- The registry had a fragment of that name. -/
  | replaced
  /-- A derived name is taken, and another one is used. -/
  | renamed (base chosen : String)
  /-- An operation is built, with so many fragments. -/
  | built (kind : OperationKind) (name : Option String) (fragments : Nat)
  /-- A fragment file is read. -/
  | fileRead (path : String)
  /-- The scan passed over something that is no file. -/
  | skippedNonFile (path : String)
  /-- The scan passed over a file with another extension. -/
  | skippedNonFragment (path : String)
  /-- The scan ended with so many files. -/
  | filesFound (count : Nat)
  /-- The fragment of a file is registered. -/
  | fragmentLoaded (name path : String)
deriving DecidableEq, Repr

namespace Event

/-- How grave an event is. -/
def level : Event → LogLevel
  | levelUnknown _ => .warn
  | replaced | renamed _ _ | built _ _ _ | filesFound _ => .debug
  | levelSet _ | alreadyCollected _ | registering _ _ | fileRead _ | skippedNonFile _
  | skippedNonFragment _ | fragmentLoaded _ _ => .trace

/-- The wording of an event. -/
def message : Event → String
  | levelSet level => s!"Initial logging level set to `{level.name}`."
  | levelUnknown setting => s!"Invalid `LOG_LEVEL` environment variable value: `{setting}`"
  | alreadyCollected name => s!"Skipping already-collected fragment `{name}`."
  | registering name spreads =>
    s!"Registering fragment `{name}` (spreads: {Quoted.encodeList spreads})."
  | replaced => "Replaced a previously registered fragment."
  | renamed base chosen =>
    s!"Fragment name `{base}` is already registered; using `{chosen}` instead."
  | built kind name fragments =>
    s!"Built {kind.word} `{name.getD anonymous}` with {fragments} fragment definition(s)."
  | fileRead path => s!"Loaded fragment definition from {Quoted.encode path}."
  | skippedNonFile path => s!"Skipping non-file: {Quoted.encode path}."
  | skippedNonFragment path => s!"Skipping non-fragment file: {Quoted.encode path}."
  | filesFound count => s!"Found {count} fragment files to load."
  | fragmentLoaded name path => s!"Loaded fragment `{name}` from {Quoted.encode path}."
where
  /-- What stands for the name of an operation that has none. -/
  anonymous : String := "<anonymous>"

/-- An event as a log line. -/
def line (e : Event) : String :=
  e.level.name ++ " " ++ e.message

/-- An event as it is written to a terminal.  A message with newlines goes on over several
lines. -/
def written (e : Event) : String :=
  e.level.name ++ " " ++ Text.Terminal.encode e.message

end Event

end FragmentAssembly
