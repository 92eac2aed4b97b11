/-
FragmentAssembly/Resolution/Walk.lean

Collecting the fragments that a list of names needs.  The walk is depth-first and takes
the names from left to right: a fragment is collected before the fragments that it
spreads, and those before the next name of the list.  A name under which a fragment was
collected before is passed over, so every fragment is collected once, and a fragment that
spreads itself ends the branch instead of repeating it.

The lists that are only partly taken stand on a stack (`State.pending`), so a chain of
fragments may be of any length.  One turn of the walk is `State.step`.  It looks a fragment
up by the name that was taken, but collects it under the fragment's own name; in a registry
these are the same.  So a turn either collects a name of the registry that was not collected
yet, or shortens what stands on the stack, and the walk ends (`State.walk`).
-/
import FragmentAssembly.Log.Logged
import FragmentAssembly.Measure
import FragmentAssembly.Registry.Basic
import Std.Data.HashSet

namespace FragmentAssembly

/-- A spread of a name under which nothing is registered, with the fragment in which it
stands; without one it stands in the operation itself. -/
structure UndefinedReference where
  referencedBy : Option String
  name : String
deriving DecidableEq, Repr

/-- The wording of an undefined reference. -/
def UndefinedReference.message (e : UndefinedReference) : String :=
  match e.referencedBy with
  | some owner => "Fragment `" ++ owner ++ "`" ++ rest
  | none => "The operation" ++ rest
where
  rest := s!" references fragment `{e.name}`, but no fragment with that name has been registered"

namespace Resolution

/-- Names of one definition that are still to be taken, with the fragment to which the
definition belongs. -/
structure Pending where
  owner : Option String
  names : List String
deriving DecidableEq, Repr

/-- Where a walk stands. -/
structure State where
  /-- The fragments collected so far, each under its own name, the last one first. -/
  found : List Fragment
  /-- Their names. -/
  seen : Std.HashSet String
  /-- The lists that are partly taken, the innermost first. -/
  pending : List Pending
  /-- The names passed over because they were met before, the last one first. -/
  skipped : List String

/-- What one turn of a walk leads to, and where the walk stands then. -/
inductive Turn where
  /-- Nothing is left to take. -/
  | done (s : State)
  /-- The name that was taken is not registered. -/
  | failed (s : State) (e : UndefinedReference)
  /-- The walk goes on. -/
  | next (s : State)

namespace State

/-- A walk that is about to take the given names. -/
def start (names : List String) : State :=
  ⟨[], ∅, [⟨none, names⟩], []⟩

/-- The stack after a fragment is collected: its own spreads, if there are any, come
before everything else. -/
def push (f : Fragment) (pending : List Pending) : List Pending :=
  if f.spreads.isEmpty then pending else ⟨some f.name, f.spreads⟩ :: pending

/-- Collects a fragment under its own name.  If one was collected under this name before,
the new one takes its place. -/
def collect (f : Fragment) (s : State) : State :=
  if s.seen.contains f.name then
    { s with found := s.found.map fun g => if g.name = f.name then f else g }
  else { s with found := f :: s.found, seen := s.seen.insert f.name }

/-- One turn: takes the next name of the innermost list and looks it up, or leaves a list
that is used up. -/
def step (lookup : String → Option Fragment) (s : State) : Turn :=
  match s.pending with
  | [] => .done s
  | ⟨_, []⟩ :: outer => .next { s with pending := outer }
  | ⟨owner, name :: names⟩ :: outer =>
    if s.seen.contains name then
      .next { s with pending := ⟨owner, names⟩ :: outer, skipped := name :: s.skipped }
    else
      match lookup name with
      | none => .failed s ⟨owner, name⟩
      | some f => .next { s.collect f with pending := push f (⟨owner, names⟩ :: outer) }

/-- What was logged so far. -/
def events (s : State) : List Event :=
  s.skipped.reverse.map .alreadyCollected

/-- How many registered names were not met yet. -/
def unmet (r : Registry) (s : State) : Nat :=
  (r.fragments.keys.filter fun name => !s.seen.contains name).length

/-- How many turns it takes to use up the stack, if nothing more is put on it. -/
def load (s : State) : Nat :=
  s.pending.foldr (fun p total => p.names.length + 1 + total) 0

theorem collect_of_new {f : Fragment} {s : State} (h : s.seen.contains f.name = false) :
    s.collect f = { s with found := f :: s.found, seen := s.seen.insert f.name } := by
  simp [collect, h]

/-! ### Every turn comes closer to the end -/

/-- Meeting a registered name leaves fewer that were not met. -/
theorem unmet_insert_lt {r : Registry} {seen : Std.HashSet String} {name : String} {f : Fragment}
    (hnew : seen.contains name = false) (hreg : r.lookup? name = some f) :
    (r.fragments.keys.filter fun n => !(seen.insert name).contains n).length <
      (r.fragments.keys.filter fun n => !seen.contains n).length := by
  have hmem := Registry.mem_keys_of_lookup? hreg
  refine length_filter_lt_of_imp hmem (by simp [hnew]) (by simp) fun n _ hn => ?_
  simp only [Std.HashSet.contains_insert, Bool.not_eq_true', Bool.or_eq_false_iff] at hn ⊢
  exact hn.2

/-- A turn collects something new, or it meets nothing new and shortens the stack. -/
theorem step_decreases {r : Registry} {s t : State} (h : s.step r.lookup? = .next t) :
    t.unmet r < s.unmet r ∨ t.unmet r = s.unmet r ∧ t.load < s.load := by
  unfold step at h
  split at h
  · cases h
  · rename_i hp
    cases h
    refine .inr ⟨rfl, ?_⟩
    simp [load, hp]
  · rename_i owner name names outer hp
    split at h
    · cases h
      refine .inr ⟨rfl, ?_⟩
      simp [load, hp]
    · rename_i hseen
      split at h
      · cases h
      · rename_i f hf
        -- what is collected now is the name that was taken, and that one was not met yet
        obtain rfl := Registry.name_of_lookup? hf
        have hnew : s.seen.contains f.name = false := by simpa using hseen
        rw [collect_of_new hnew] at h
        cases h
        exact .inl (unmet_insert_lt hnew hf)

/-- Takes turns until nothing is left to take or a name is not registered. -/
def walk (r : Registry) (s : State) : Logged UndefinedReference (List Fragment) :=
  match _h : s.step r.lookup? with
  | .done t => ⟨t.events, .ok t.found.reverse⟩
  | .failed t e => ⟨t.events, .error e⟩
  | .next t => walk r t
termination_by (s.unmet r, s.load)
decreasing_by
  rcases step_decreases _h with h | ⟨h, h'⟩
  · exact .left _ _ h
  · rw [h]
    exact .right _ h'

end State

end Resolution

/-- The fragments that a list of names needs, each once: those of the names, and those
that their definitions spread, in the order in which a depth-first walk meets them. -/
def Registry.resolve (r : Registry) (names : List String) :
    Logged UndefinedReference (List Fragment) :=
  (Resolution.State.start names).walk r

end FragmentAssembly
