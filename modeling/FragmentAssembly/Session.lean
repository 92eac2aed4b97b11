/-
FragmentAssembly/Session.lean

Sessions.  A session is a registry that is worked on step by step, together with what
its steps can refer to: the files, the fragments that earlier steps made, and copies of
the registry that were kept.  A failing step is answered like any other, and the session
goes on.
-/
import FragmentAssembly.Registry.Action

namespace FragmentAssembly

/-- One step of a session. -/
inductive Step where
  /-- Make a fragment and register it. -/
  | add (input : FragmentInput)
  /-- Read a fragment from a file, which may be written first. -/
  | load (path : String) (content : Option Node)
  /-- Register, once more, the fragment that a step made. -/
  | register (step : Nat)
  /-- Register fragments that each spread the next. -/
  | chain (stem : String) (count : Nat)
  /-- Look a fragment up. -/
  | lookup (name : String)
  /-- List the registry. -/
  | list
  /-- Collect the fragments that names need. -/
  | resolve (names : List String)
  /-- Assemble an operation. -/
  | assemble (kind : OperationKind) (input : OperationInput)
  /-- Forget every fragment and every number. -/
  | reset
  /-- Ask whether the registry is the empty one. -/
  | isNew
  /-- Keep a copy of the registry. -/
  | snapshot
  /-- Ask whether the registry is a kept one. -/
  | equals (snapshot : Nat)
  /-- Go on with a copy of a kept registry. -/
  | restore (snapshot : Nat)

/-- What a step answers. -/
inductive StepAnswer where
  /-- What was done with the registry. -/
  | action (answer : Answer)
  /-- The number of fragments. -/
  | size (count : Nat)
  /-- The registry. -/
  | entries (list : List (String × Fragment))
  /-- Whether two registries are equal. -/
  | equal (isEqual : Bool)
  /-- The number of a kept registry. -/
  | snapshot (index : Nat)
  /-- The step refers to something that is not there. -/
  | nothing

/-- A registry under work, and what steps can refer to. -/
structure Session where
  files : FileTree
  registry : Registry
  /-- The fragment that each step made, if it made one. -/
  made : Array (Option Fragment)
  snapshots : Array Registry

namespace Session

/-- A session that has done nothing yet, in an empty directory. -/
def start : Session :=
  ⟨.empty, .empty, #[], #[]⟩

/-- The definitions of a chain of fragments, each of which spreads the next. -/
def chainTexts (stem : String) : (index count : Nat) → List String
  | _, 0 => []
  | index, 1 => [s!"fragment {stem}{index} on T \x7b id \x7d"]
  | index, count + 1 =>
    s!"fragment {stem}{index} on T \x7b id ...{stem}{index + 1} \x7d" ::
      chainTexts stem (index + 1) count

/-- The session with another registry. -/
def withRegistry (s : Session) (r : Registry) : Session :=
  { s with registry := r }

/-- Does one action with the registry. -/
def act (s : Session) (action : Action) : Reply × Session :=
  let (reply, r) := s.registry.perform action
  (reply, s.withRegistry r)

/-- Answers with what the action answered. -/
def actAndAnswer (s : Session) (action : Action) :
    (StepAnswer × List Event × Option Fragment) × Session :=
  let (reply, s) := s.act action
  ((.action reply.answer, reply.events, reply.answer.fragment?), s)

/-- Does some actions and answers with the number of fragments. -/
def actAndCount (s : Session) (actions : List Action) :
    (StepAnswer × List Event × Option Fragment) × Session :=
  let (replies, r) := s.registry.performAll actions
  ((.size r.size, replies.flatMap Reply.events, none), s.withRegistry r)

/-- The session with the file written, if there is something to write. -/
def writeFile (s : Session) (path : String) : Option Node → Session
  | none => s
  | some content => { s with files := s.files.write path content }

/-- Answers without doing anything. -/
def answer (s : Session) (a : StepAnswer) : (StepAnswer × List Event × Option Fragment) × Session :=
  ((a, [], none), s)

/-- Does what a step asks for: its answer, its log, the fragment that it made, and the
session after it. -/
def perform (s : Session) : Step → (StepAnswer × List Event × Option Fragment) × Session
  | .add input => s.actAndAnswer (.add input)
  | .load path content =>
    let s := s.writeFile path content
    s.actAndAnswer (.load s.files path)
  | .register step =>
    match (s.made[step]?).join with
    | none => s.answer .nothing
    | some f => s.actAndCount [.register f]
  | .chain stem count =>
    s.actAndCount ((chainTexts stem 0 count).map fun text => .add (.text text))
  | .lookup name => s.actAndAnswer (.lookup name)
  | .list => s.answer (.entries s.registry.toList)
  | .resolve names => s.actAndAnswer (.resolve names)
  | .assemble kind input => s.actAndAnswer (.assemble kind input)
  | .reset => s.actAndCount [.reset]
  | .isNew => s.answer (.equal (s.registry == .empty))
  | .snapshot =>
    ((.snapshot s.snapshots.size, [], none), { s with snapshots := s.snapshots.push s.registry })
  | .equals snapshot =>
    match s.snapshots[snapshot]? with
    | none => s.answer .nothing
    | some r => s.answer (.equal (s.registry == r))
  | .restore snapshot =>
    match s.snapshots[snapshot]? with
    | none => s.answer .nothing
    | some r => (s.withRegistry r).actAndCount []

/-- One step: its answer and its log. -/
def step (s : Session) (step : Step) : (StepAnswer × List Event) × Session :=
  let ((answer, events, made), s) := s.perform step
  ((answer, events), { s with made := s.made.push made })

/-- The steps of a session, one after another. -/
def run (s : Session) : List Step → List (StepAnswer × List Event)
  | [] => []
  | step :: rest =>
    let (answer, s) := s.step step
    answer :: s.run rest

end Session

end FragmentAssembly
