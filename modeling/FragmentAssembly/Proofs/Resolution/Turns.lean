/-
FragmentAssembly/Proofs/Resolution/Turns.lean

The turns of a walk in a registry.  `State.step` is opened once, here: `Takes r s turn` lists
the five things that a turn can do, each with all that it looked at, and `takes_step` says that
every turn is one of them.  A fragment of a registry is collected under the name that was taken,
so it is always a new one.

A walk is its turns one after another, so whatever every turn keeps holds where the walk
ends (`exists_end`).  There the last turn is at hand as well: it found the stack empty, or it
took a name that is not registered.  And walks in two registries are the same as long as their
turns are (`walk_congr`), which look at one name each (`step_congr`).
-/
import FragmentAssembly.Resolution.Walk

namespace FragmentAssembly.Resolution.State

variable {r : Registry} {s t : State}

/-! ### One turn -/

/-- What a turn does with a state, and what it saw there. -/
inductive Takes (r : Registry) (s : State) : Turn → Prop
  /-- The stack is empty. -/
  | done (hp : s.pending = []) : Takes r s (.done s)
  /-- The innermost list is used up. -/
  | leave {owner outer} (hp : s.pending = ⟨owner, []⟩ :: outer) :
      Takes r s (.next { s with pending := outer })
  /-- The next name was met before. -/
  | skip {owner name names outer} (hp : s.pending = ⟨owner, name :: names⟩ :: outer)
      (hseen : s.seen.contains name = true) :
      Takes r s (.next { s with
        pending := ⟨owner, names⟩ :: outer, skipped := name :: s.skipped })
  /-- The next name is new, and nothing is registered under it. -/
  | fail {owner name names outer} (hp : s.pending = ⟨owner, name :: names⟩ :: outer)
      (hseen : s.seen.contains name = false) (hreg : r.lookup? name = none) :
      Takes r s (.failed s ⟨owner, name⟩)
  /-- The next name is new, and its fragment is collected. -/
  | collect {owner names outer f} (hp : s.pending = ⟨owner, f.name :: names⟩ :: outer)
      (hseen : s.seen.contains f.name = false) (hreg : r.lookup? f.name = some f) :
      Takes r s (.next { s with
        found := f :: s.found
        seen := s.seen.insert f.name
        pending := push f (⟨owner, names⟩ :: outer) })

/-- Every turn is one of the five. -/
theorem takes_step (r : Registry) (s : State) : Takes r s (s.step r.lookup?) := by
  unfold step
  split
  · rename_i hp
    exact .done hp
  · rename_i hp
    exact .leave hp
  · rename_i owner name names outer hp
    split
    · rename_i hseen
      exact .skip hp hseen
    · rename_i hseen
      have hnew : s.seen.contains name = false := by simpa using hseen
      split
      · rename_i hreg
        exact .fail hp hnew hreg
      · rename_i f hreg
        obtain rfl := Registry.name_of_lookup? hreg
        rw [collect_of_new hnew]
        exact .collect hp hnew hreg

theorem takes_of_step {turn : Turn} (h : s.step r.lookup? = turn) : Takes r s turn := by
  rw [← h]
  exact takes_step r s

/-- The walk is over only when the stack is empty. -/
theorem pending_of_done (h : s.step r.lookup? = .done t) : t.pending = [] := by
  cases takes_of_step h with
  | done hp => exact hp

/-- A walk fails on a new name of the innermost list under which nothing is registered. -/
theorem exists_of_failed {e : UndefinedReference} (h : s.step r.lookup? = .failed t e) :
    ∃ names outer, t.pending = ⟨e.referencedBy, e.name :: names⟩ :: outer ∧
      t.seen.contains e.name = false ∧ r.lookup? e.name = none := by
  cases takes_of_step h with
  | fail hp hseen hreg => exact ⟨_, _, hp, hseen, hreg⟩

/-- A new name under which nothing is registered ends the walk. -/
theorem step_of_unregistered {owner : Option String} {name : String} {names : List String}
    {outer : List Pending} (hp : s.pending = ⟨owner, name :: names⟩ :: outer)
    (hseen : s.seen.contains name = false) (hreg : r.lookup? name = none) :
    s.step r.lookup? = .failed s ⟨owner, name⟩ := by
  simp [step, hp, hseen, hreg]

/-- A turn is the same in two registries that give the same for the new name that it takes, if
it takes one. -/
theorem step_congr {r' : Registry}
    (h : ∀ owner name names outer, s.pending = ⟨owner, name :: names⟩ :: outer →
      s.seen.contains name = false → r'.lookup? name = r.lookup? name) :
    s.step r'.lookup? = s.step r.lookup? := by
  unfold step
  rcases hp : s.pending with - | ⟨⟨owner, - | ⟨name, names⟩⟩, outer⟩
  · rfl
  · rfl
  · dsimp only
    cases hseen : s.seen.contains name with
    | true => rfl
    | false => rw [h owner name names outer hp hseen]

/-! ### The whole walk -/

theorem walk_of_done (h : s.step r.lookup? = .done t) :
    s.walk r = ⟨t.events, .ok t.found.reverse⟩ := by
  rw [walk]
  split <;> simp_all

theorem walk_of_failed {e : UndefinedReference} (h : s.step r.lookup? = .failed t e) :
    s.walk r = ⟨t.events, .error e⟩ := by
  rw [walk]
  split <;> simp_all

theorem walk_of_next (h : s.step r.lookup? = .next t) : s.walk r = t.walk r := by
  rw [walk]
  split <;> simp_all

/-- Walks are the same in two registries in which every turn is, as long as what makes the turns
the same is kept. -/
theorem walk_congr {r' : Registry} {P : State → Prop}
    (hkeep : ∀ s t, P s → s.step r.lookup? = .next t → P t)
    (hsame : ∀ s, P s → s.step r'.lookup? = s.step r.lookup?) (h : P s) :
    s.walk r' = s.walk r := by
  fun_induction walk r s with
  | case1 s t hstep => exact walk_of_done ((hsame s h).trans hstep)
  | case2 s t e hstep => exact walk_of_failed ((hsame s h).trans hstep)
  | case3 s t hstep ih =>
    rw [walk_of_next ((hsame s h).trans hstep)]
    exact ih (hkeep s t h hstep)

/-- What every turn keeps holds where the walk ends. -/
theorem exists_end {P : State → Prop} (hkeep : ∀ s t, P s → s.step r.lookup? = .next t → P t)
    (h : P s) :
    ∃ t, P t ∧
      (t.step r.lookup? = .done t ∧ (s.walk r).outcome = .ok t.found.reverse ∨
        ∃ e, t.step r.lookup? = .failed t e ∧ (s.walk r).outcome = .error e) := by
  fun_induction walk r s with
  -- the two last turns leave the state as it is
  | case1 s t hstep =>
    cases takes_of_step hstep with
    | done hp => exact ⟨s, h, .inl ⟨hstep, rfl⟩⟩
  | case2 s t e hstep =>
    cases takes_of_step hstep with
    | fail hp hseen hreg => exact ⟨s, h, .inr ⟨_, hstep, rfl⟩⟩
  | case3 s t hstep ih => exact ih (hkeep s t h hstep)

end FragmentAssembly.Resolution.State
