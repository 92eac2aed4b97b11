/-
FragmentAssembly/Proofs/Resolution/Recursion.lean

The walk with a stack is the plain recursion.  `Registry.gather` is `Registry.collect`
without the bound that its results carry, and obeys the four equations of a depth-first
search (`gather_nil`, `gather_of_met`, `gather_of_unregistered`, `gather_of_new`).

A walk that is under way has lists on its stack that are only partly taken.  What it still
has to do is to gather the innermost of them, then the next one with what was met by then,
and so on outwards: `Registry.gatherStack`.  `outcome_walk` says that a walk answers just
that from wherever it stands, and at the start the stack is the one list of names.
-/
import FragmentAssembly.Proofs.Resolution.Turns
import FragmentAssembly.Resolution.Recursive

namespace FragmentAssembly

open Resolution

namespace Registry

variable {r : Registry} {owner : Option String} {name : String} {names : List String}
  {met : List Fragment}

/-! ### The equations of the recursion -/

/-- Collects what the names need, beginning with the fragments that were met before. -/
def gather (r : Registry) (owner : Option String) (names : List String) (met : List Fragment) :
    Except UndefinedReference (List Fragment) :=
  (r.collect owner names met).map Subtype.val

@[simp] theorem gather_nil : r.gather owner [] met = .ok met := by
  rw [gather, collect]
  rfl

/-- A name that was met before is passed over. -/
theorem gather_of_met (h : name ∈ met.map Fragment.name) :
    r.gather owner (name :: names) met = r.gather owner names met := by
  rw [gather, collect, dif_pos h]
  rfl

/-- A new name must be registered. -/
theorem gather_of_unregistered (h : name ∉ met.map Fragment.name) (hreg : r.lookup? name = none) :
    r.gather owner (name :: names) met = .error ⟨owner, name⟩ := by
  rw [gather, collect, dif_neg h]
  split
  · rfl
  · simp_all

/-- A new name is met before the spreads of its fragment are gathered, and those are gathered
before the next name. -/
theorem gather_of_new {f : Fragment} (h : name ∉ met.map Fragment.name)
    (hreg : r.lookup? name = some f) :
    r.gather owner (name :: names) met =
      (r.gather (some f.name) f.spreads (met ++ [f])).bind (r.gather owner names) := by
  rw [gather, collect, dif_neg h]
  split
  · simp_all
  · rename_i g hg
    obtain rfl : f = g := by rw [hreg] at hg; exact Option.some.inj hg
    rw [gather]
    rcases r.collect (some f.name) f.spreads (met ++ [f]) with e | ⟨inner, hinner⟩
    · rfl
    · show _ = (r.collect owner names inner).map Subtype.val
      dsimp only
      rcases r.collect owner names inner with e | ⟨all, hall⟩ <;> rfl

/-- Gathers what the lists of a stack need, the innermost first. -/
def gatherStack (r : Registry) :
    List Pending → List Fragment → Except UndefinedReference (List Fragment)
  | [], met => .ok met
  | p :: outer, met => (r.gather p.owner p.names met).bind (r.gatherStack outer)

/-- A list that is put on the stack only if it is not empty may as well be put there always. -/
theorem gatherStack_push (r : Registry) (f : Fragment) (pending : List Pending)
    (met : List Fragment) :
    r.gatherStack (State.push f pending) met =
      (r.gather (some f.name) f.spreads met).bind (r.gatherStack pending) := by
  unfold State.push
  split
  · rename_i h
    rw [List.isEmpty_iff.1 h, gather_nil]
    rfl
  · rfl

end Registry

/-! ### The walk follows the recursion -/

namespace Resolution.State

variable {r : Registry} {s : State} {met : List Fragment}

/-- The walk has met what the recursion has met, in the same order. -/
structure Matches (s : State) (met : List Fragment) : Prop where
  seen : ∀ name, s.seen.contains name = true ↔ name ∈ met.map Fragment.name
  found : s.found.reverse = met

theorem matches_start (names : List String) : (start names).Matches [] :=
  ⟨fun name => by simp [start], rfl⟩

theorem Matches.notMem {name : String} (h : s.Matches met) (hnew : s.seen.contains name = false) :
    name ∉ met.map Fragment.name := by
  intro hmem
  rw [(h.seen name).2 hmem] at hnew
  cases hnew

/-- Both meet a new fragment at the same place. -/
theorem Matches.collect {f : Fragment} {pending : List Pending} (h : s.Matches met) :
    Matches { s with found := f :: s.found, seen := s.seen.insert f.name, pending }
      (met ++ [f]) where
  seen := by
    intro n
    simp only [Std.HashSet.contains_insert, Bool.or_eq_true, beq_iff_eq, h.seen n,
      List.map_append, List.map_cons, List.map_nil, List.mem_append, List.mem_singleton]
    exact or_comm.trans (or_congr_right eq_comm)
  found := by
    rw [List.reverse_cons, h.found]

/-- From wherever a walk stands, it answers what the recursion gathers from the lists on its
stack. -/
theorem outcome_walk (h : s.Matches met) :
    (s.walk r).outcome = r.gatherStack s.pending met := by
  -- one turn, and then what the recursion gathers from the stack that the turn left
  fun_induction walk r s generalizing met with
  | case1 s t hstep =>
    cases takes_of_step hstep with
    | done hp =>
      rw [hp, h.found]
      rfl
  | case2 s t e hstep =>
    cases takes_of_step hstep with
    | fail hp hseen hreg =>
      rw [hp, Registry.gatherStack, Registry.gather_of_unregistered (h.notMem hseen) hreg]
      rfl
  | case3 s t hstep ih =>
    cases takes_of_step hstep with
    | leave hp =>
      -- a list that is used up gathers nothing more
      rw [ih ⟨h.seen, h.found⟩, hp, Registry.gatherStack, Registry.gather_nil]
      rfl
    | skip hp hseen =>
      rw [ih ⟨h.seen, h.found⟩, hp, Registry.gatherStack, Registry.gatherStack,
        Registry.gather_of_met ((h.seen _).1 hseen)]
    | @collect owner names outer f hp hseen hreg =>
      rw [ih h.collect, Registry.gatherStack_push, hp, Registry.gatherStack,
        Registry.gather_of_new (h.notMem hseen) hreg]
      -- what follows the spreads of the fragment: the rest of its list, then the outer lists
      rcases r.gather (some f.name) f.spreads (met ++ [f]) with e | inner <;> rfl

end Resolution.State

namespace Registry

/-- Resolving is gathering, from nothing met, what the operation itself spreads. -/
theorem outcome_resolve (r : Registry) (names : List String) :
    (r.resolve names).outcome = r.gather none names [] := by
  rw [resolve, State.outcome_walk (State.matches_start names)]
  show (r.gather none names []).bind (r.gatherStack []) = _
  rcases r.gather none names [] with e | all <;> rfl

/-- Resolving names with a stack answers what the depth-first recursion collects: the same
fragments in the same order, or the same undefined reference. -/
theorem outcome_resolve_eq_collectAll (r : Registry) (names : List String) :
    (r.resolve names).outcome = r.collectAll names :=
  outcome_resolve r names

end Registry

end FragmentAssembly
