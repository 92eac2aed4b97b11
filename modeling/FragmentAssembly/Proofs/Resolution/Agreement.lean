/-
FragmentAssembly/Proofs/Resolution/Agreement.lean

Resolutions in two registries.  Two registries may differ as they like, and still resolve the
same names in the same way, turn by turn and with the same log.  There are two conditions
for it.

* They give the same for every name that is needed in the first one (`resolve_congr`).  Only
  needed names ever stand on the stack (`State.Needed`), so no turn looks at any other.  This
  holds where the walk fails as well.
* The second one has everything that the first one has, where the resolution succeeds
  (`resolve_of_extends`).  A turn that saw a missing name would have ended the walk.
-/
import FragmentAssembly.Proofs.Resolution.Coverage

namespace FragmentAssembly

open Resolution

namespace Resolution.State

variable {r : Registry} {names : List String} {s t : State}

/-- Everything that is still to be taken is needed. -/
def Needed (r : Registry) (names : List String) (s : State) : Prop :=
  ∀ p ∈ s.pending, ∀ name ∈ p.names, r.Needs names name

theorem needed_start (r : Registry) (names : List String) : Needed r names (start names) := by
  intro p hp name hname
  obtain rfl := List.mem_singleton.1 hp
  exact .given hname

theorem Needed.head {p : Pending} {outer : List Pending} (h : Needed r names s)
    (hp : s.pending = p :: outer) : ∀ name ∈ p.names, r.Needs names name :=
  h p (by rw [hp]; exact List.mem_cons_self)

theorem Needed.outer {p : Pending} {outer : List Pending} (h : Needed r names s)
    (hp : s.pending = p :: outer) : ∀ q ∈ outer, ∀ name ∈ q.names, r.Needs names name :=
  fun q hq => h q (by rw [hp]; exact List.mem_cons_of_mem _ hq)

/-- A turn puts nothing on the stack that is not needed. -/
theorem Needed.step (h : Needed r names s) (hstep : s.step r.lookup? = .next t) :
    Needed r names t := by
  cases takes_of_step hstep with
  | leave hp => exact h.outer hp
  | skip hp hseen =>
    intro p hmem
    rcases List.mem_cons.1 hmem with rfl | hmem
    · exact fun name hname => h.head hp name (List.mem_cons_of_mem _ hname)
    · exact h.outer hp p hmem
  | @collect owner rest outer f hp hseen hreg =>
    intro p hmem
    rcases mem_push.1 hmem with ⟨rfl, -⟩ | hmem
    -- the spreads of a needed fragment
    · exact fun n hn => .spread (h.head hp f.name List.mem_cons_self) hreg hn
    · rcases List.mem_cons.1 hmem with rfl | hmem
      · exact fun n hn => h.head hp n (List.mem_cons_of_mem _ hn)
      · exact h.outer hp p hmem

end Resolution.State

namespace Registry

variable {r s : Registry} {names : List String}

/-- Registries that agree on the needed names resolve alike, and fail alike. -/
theorem resolve_congr (h : ∀ name, r.Needs names name → s.lookup? name = r.lookup? name) :
    s.resolve names = r.resolve names := by
  refine State.walk_congr (fun _ _ hs hstep => State.Needed.step hs hstep) (fun st hst => ?_)
    (State.needed_start r names)
  refine State.step_congr fun owner name rest outer hp _ => h name ?_
  exact hst.head hp name List.mem_cons_self

/-- What resolves in one registry resolves alike in every registry that has more. -/
theorem resolve_of_extends (h : ∀ name f, r.lookup? name = some f → s.lookup? name = some f)
    {fs : List Fragment} (hok : (r.resolve names).outcome = .ok fs) :
    s.resolve names = r.resolve names := by
  refine State.walk_congr (P := fun st => (st.walk r).outcome = .ok fs) (fun st t hst hstep => ?_)
    (fun st hst => ?_) hok
  · rw [State.walk_of_next hstep] at hst
    exact hst
  · refine State.step_congr fun owner name rest outer hp hnew => ?_
    cases hreg : r.lookup? name with
    | none =>
      rw [State.walk_of_failed (State.step_of_unregistered hp hnew hreg)] at hst
      cases hst
    | some f => exact h name f hreg

end Registry

end FragmentAssembly
