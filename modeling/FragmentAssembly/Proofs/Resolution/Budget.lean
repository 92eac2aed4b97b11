/-
FragmentAssembly/Proofs/Resolution/Budget.lean

How long a walk takes.  A turn takes one name or leaves one list, so a list on the stack takes as
many turns as it has names, and one more (`State.load`).  A fragment that was not met yet may still
put its list there, and then it adds as many turns as its list takes (`Fragment.turns`).  Both
together are the budget of a state (`State.budget`).  Collecting a fragment moves its turns from the
one part to the other, since the name that was taken is the one that is met from then on; so every
turn costs one of the budget, whatever it does (`State.budget_step`), and a walk has no more turns
than the budget it starts with.

This hangs on the names.  A fragment is looked up by the name that was taken and collected under its
own name, and only in a registry these are the same.  If a fragment could stand under another name
and spread that one, it would be collected again and again (`State.exists_run_of_misnamed`).

What was put on the stack is told by the stack growing (`State.pushed`).  In a run of turns these
are the lists of the collected fragments that spread something, each fragment's once, and the stack
is never higher than one list for each fragment and one for the given names (`State.Spent`).
-/
import FragmentAssembly.Proofs.Resolution.Coverage

namespace FragmentAssembly

open Resolution

/-! ### Totals -/

section Totals

variable {α : Type} {l : List α} {v w : α → Nat}

/-- What the members of a list weigh together. -/
def total (w : α → Nat) (l : List α) : Nat :=
  l.foldr (fun a rest => w a + rest) 0

theorem total_cons (a : α) (l : List α) : total w (a :: l) = w a + total w l := rfl

theorem total_le (h : ∀ a ∈ l, w a ≤ v a) : total w l ≤ total v l := by
  induction l with
  | nil => exact Nat.le_refl 0
  | cons a l ih =>
    obtain ⟨ha, hl⟩ := List.forall_mem_cons.1 h
    exact Nat.add_le_add ha (ih hl)

/-- If no member gets heavier, what one of them loses is lost from the total. -/
theorem total_add_le {a : α} {k : Nat} (ha : a ∈ l) (hk : w a + k ≤ v a)
    (h : ∀ b ∈ l, w b ≤ v b) : total w l + k ≤ total v l := by
  obtain ⟨before, after, rfl⟩ := List.append_of_mem ha
  induction before with
  | nil =>
    have hafter := total_le fun b hb => h b (List.mem_cons_of_mem _ hb)
    rw [List.nil_append, total_cons, total_cons]
    omega
  | cons b before ih =>
    have hb := h b List.mem_cons_self
    have hrest := ih (by simp) fun c hc => h c (List.mem_cons_of_mem _ hc)
    rw [List.cons_append, total_cons, total_cons]
    omega

end Totals

/-! ### The budget -/

/-- How many turns the list of a fragment takes once it is on the stack.  An empty one is never put
there. -/
def Fragment.turns (f : Fragment) : Nat :=
  if f.spreads.isEmpty then 0 else f.spreads.length + 1

/-- The given names, all names in the lists of fragments, a list for each fragment that has one, and
the list of given names. -/
def Registry.turnBound (r : Registry) (names : List String) : Nat :=
  names.length + total (fun entry => entry.2.spreads.length) r.toList +
    (r.toList.filter fun entry => !entry.2.spreads.isEmpty).length + 1

theorem Registry.mem_toList {r : Registry} {name : String} {f : Fragment}
    (h : r.lookup? name = some f) : (name, f) ∈ r.toList :=
  Std.ExtTreeMap.mem_toList_iff_getElem?_eq_some.2 h

/-- The turns of all lists are their names and the lists themselves. -/
theorem total_turns (entries : List (String × Fragment)) :
    total (fun entry => entry.2.turns) entries =
      total (fun entry => entry.2.spreads.length) entries +
        (entries.filter fun entry => !entry.2.spreads.isEmpty).length := by
  induction entries with
  | nil => rfl
  | cons entry entries ih =>
    rw [total_cons, total_cons, ih, Fragment.turns, List.filter_cons]
    cases hempty : entry.2.spreads.isEmpty with
    | true => simp [List.isEmpty_iff.1 hempty]
    | false =>
      simp
      omega

namespace Resolution.State

variable {r : Registry} {names : List String} {s t u : State} {turns : Nat} {lists : List Pending}

/-- How many turns the lists of the fragments take that were not met yet. -/
def unmetTurns (r : Registry) (seen : Std.HashSet String) : Nat :=
  total (fun entry => if seen.contains entry.1 then 0 else entry.2.turns) r.toList

/-- How many turns a walk may still take: those of the fragments that were not met, and those of the
lists on the stack. -/
def budget (r : Registry) (s : State) : Nat :=
  unmetTurns r s.seen + s.load

theorem unmetTurns_empty (r : Registry) :
    unmetTurns r ∅ = total (fun entry => entry.2.turns) r.toList := by
  simp [unmetTurns]

/-- A collected fragment has no turns left to add, and the others have no more than before. -/
theorem unmetTurns_insert_le {seen : Std.HashSet String} {name : String} {f : Fragment}
    (hnew : seen.contains name = false) (hreg : r.lookup? name = some f) :
    unmetTurns r (seen.insert name) + f.turns ≤ unmetTurns r seen := by
  refine total_add_le (Registry.mem_toList hreg) (by simp [hnew]) fun entry _ => ?_
  rw [Std.HashSet.contains_insert]
  cases seen.contains entry.1 with
  | true => simp
  | false => split <;> simp

theorem budget_start (r : Registry) (names : List String) :
    (start names).budget r = r.turnBound names := by
  have hload : (start names).load = names.length + 1 := rfl
  have hunmet : unmetTurns r (start names).seen = _ := unmetTurns_empty r
  rw [budget, hunmet, hload, total_turns, Registry.turnBound]
  omega

/-- The list of a collected fragment is as long on the stack as the fragment said. -/
theorem foldr_push (f : Fragment) (pending : List Pending) :
    (push f pending).foldr (fun p rest => p.names.length + 1 + rest) 0 =
      f.turns + pending.foldr (fun p rest => p.names.length + 1 + rest) 0 := by
  rw [push, Fragment.turns]
  split
  · rw [Nat.zero_add]
  · rfl

/-- Every turn costs one. -/
theorem budget_step (h : s.step r.lookup? = .next t) : t.budget r + 1 ≤ s.budget r := by
  cases takes_of_step h with
  | leave hp =>
    simp only [budget, load, hp, List.foldr_cons, List.length_nil]
    omega
  | skip hp hseen =>
    simp only [budget, load, hp, List.foldr_cons, List.length_cons]
    omega
  | collect hp hseen hreg =>
    have hunmet := unmetTurns_insert_le hseen hreg
    simp only [budget, load, hp, foldr_push, List.foldr_cons, List.length_cons]
    omega

/-- A turn that fails took a name, so it could be paid for. -/
theorem budget_pos_of_failed {e : UndefinedReference} (h : s.step r.lookup? = .failed t e) :
    1 ≤ t.budget r := by
  obtain ⟨rest, outer, hp, -⟩ := exists_of_failed h
  simp only [budget, load, hp, List.foldr_cons]
  omega

/-! ### The stack -/

/-- What stands higher on the stack than the stack was high. -/
def pushed (s t : State) : List Pending :=
  t.pending.take (t.pending.length - s.pending.length)

/-- Some turns one after another: how many, what they put on the stack, the last list first, and the
state that they lead to. -/
inductive Run (lookup : String → Option Fragment) (s : State) : Nat → List Pending → State → Prop
  | refl : Run lookup s 0 [] s
  | next {turns : Nat} {lists : List Pending} {t u : State} (h : Run lookup s turns lists t)
      (hstep : t.step lookup = .next u) : Run lookup s (turns + 1) (pushed t u ++ lists) u

/-- The lists of the fragments that spread something. -/
def spreadLists (found : List Fragment) : List Pending :=
  (found.filter fun f => !f.spreads.isEmpty).map fun f => ⟨some f.name, f.spreads⟩

theorem spreadLists_cons (f : Fragment) (found : List Fragment) :
    spreadLists (f :: found) = push f (spreadLists found) := by
  rw [spreadLists, push, List.filter_cons]
  cases f.spreads.isEmpty <;> rfl

theorem pushed_of_length_le (h : t.pending.length ≤ s.pending.length) : pushed s t = [] := by
  rw [pushed, Nat.sub_eq_zero_of_le h, List.take_zero]

/-- A stack on which the list of a fragment is put grows by that list, if there is one. -/
theorem pushed_append_of_push {f : Fragment} {pending : List Pending}
    (hlength : pending.length = s.pending.length) (ht : t.pending = push f pending)
    (lists : List Pending) : pushed s t ++ lists = push f lists := by
  rw [pushed, ht, ← hlength, push, push]
  split
  · simp
  · simp

theorem length_push_le (f : Fragment) (pending : List Pending) :
    (push f pending).length ≤ pending.length + 1 := by
  unfold push
  split
  · exact Nat.le_succ _
  · exact Nat.le_refl _

/-- What is known after some turns: what they have cost, what they have put on the stack, and how
high it is. -/
structure Spent (r : Registry) (bound turns : Nat) (lists : List Pending) (s : State) : Prop where
  paid : turns + s.budget r ≤ bound
  /-- What was put on the stack are the lists of the collected fragments, in their order. -/
  lists_eq : lists = spreadLists s.found
  /-- One list for each collected fragment, and the given one. -/
  height : s.pending.length ≤ 1 + s.found.length

theorem spent_start (r : Registry) (names : List String) :
    Spent r (r.turnBound names) 0 [] (start names) where
  paid := Nat.le_of_eq (by rw [budget_start, Nat.zero_add])
  lists_eq := rfl
  height := Nat.le_refl 1

theorem Spent.step {bound : Nat} (h : Spent r bound turns lists s)
    (hstep : s.step r.lookup? = .next t) : Spent r bound (turns + 1) (pushed s t ++ lists) t := by
  have hpaid : turns + 1 + t.budget r ≤ bound := by
    have := h.paid
    have := budget_step hstep
    omega
  have hheight := h.height
  have hlists := h.lists_eq
  cases takes_of_step hstep with
  | leave hp =>
    rw [hp, List.length_cons] at hheight
    rw [pushed_of_length_le (by simp [hp])]
    exact ⟨hpaid, hlists, by dsimp only; omega⟩
  | skip hp hseen =>
    rw [hp] at hheight
    rw [pushed_of_length_le (by simp [hp])]
    exact ⟨hpaid, hlists, hheight⟩
  | @collect owner names outer f hp hseen hreg =>
    rw [hp, List.length_cons] at hheight
    rw [pushed_append_of_push (by simp [hp]) rfl, hlists, ← spreadLists_cons]
    refine ⟨hpaid, rfl, Nat.le_trans (length_push_le f _) ?_⟩
    simp only [List.length_cons]
    omega

theorem Run.spent (h : Run r.lookup? (start names) turns lists t) :
    Spent r (r.turnBound names) turns lists t := by
  induction h with
  | refl => exact spent_start r names
  | next _ hstep ih => exact ih.step hstep

theorem Run.explored (h : Run r.lookup? (start names) turns lists t) : Explored r names t := by
  induction h with
  | refl => exact explored_start r names
  | next _ hstep ih => exact ih.step hstep

/-- Fragments of different names have lists of different owners. -/
theorem nodup_owners {found : List Fragment} (h : (found.map Fragment.name).Nodup) :
    ((spreadLists found).map Pending.owner).Nodup := by
  rw [spreadLists, List.map_map]
  refine List.pairwise_map.2 (((List.pairwise_map.1 h).sublist List.filter_sublist).imp ?_)
  exact fun hne heq => hne (Option.some.inj heq)

/-! ### Fragments under names of others -/

section Misnamed

variable {lookup : String → Option Fragment} {name : String} {f : Fragment}
  {rest more : List String}

/-- Collecting a fragment meets its own name only. -/
theorem contains_collect_of_ne (h : f.name ≠ name) :
    (s.collect f).seen.contains name = s.seen.contains name := by
  unfold collect
  split
  · rfl
  · simp [h]

/-- The next name is a new one. -/
structure TakesNew (name : String) (s : State) : Prop where
  next : ∃ owner rest outer, s.pending = ⟨owner, name :: rest⟩ :: outer
  new : s.seen.contains name = false

/-- A name under which a fragment of another name stands is still a new one after that fragment was
collected, and if the fragment spreads it first, it comes next again. -/
theorem TakesNew.step (h : TakesNew name s) (hreg : lookup name = some f) (hname : f.name ≠ name)
    (hspreads : f.spreads = name :: rest) : ∃ t, s.step lookup = .next t ∧ TakesNew name t := by
  obtain ⟨owner, names, outer, hp⟩ := h.next
  have hnew := h.new
  refine ⟨{ s.collect f with pending := push f (⟨owner, names⟩ :: outer) }, ?_, ?_, ?_⟩
  · simp [State.step, hp, hnew, hreg]
  · exact ⟨some f.name, rest, ⟨owner, names⟩ :: outer, by simp [push, hspreads]⟩
  · exact (contains_collect_of_ne hname).trans hnew

/-- So a fragment that stands under another name and spreads it first is collected for ever: there
are runs of any number of turns. -/
theorem exists_run_of_misnamed (hreg : lookup name = some f) (hname : f.name ≠ name)
    (hspreads : f.spreads = name :: rest) (turns : Nat) :
    ∃ lists t, Run lookup (start (name :: more)) turns lists t := by
  have hrun : ∃ lists t, Run lookup (start (name :: more)) turns lists t ∧ TakesNew name t := by
    induction turns with
    | zero => exact ⟨[], _, .refl, ⟨none, more, [], rfl⟩, by simp [start]⟩
    | succ turns ih =>
      obtain ⟨lists, t, hrun, ht⟩ := ih
      obtain ⟨u, hstep, hu⟩ := ht.step hreg hname hspreads
      exact ⟨_, u, hrun.next hstep, hu⟩
  obtain ⟨lists, t, hrun, -⟩ := hrun
  exact ⟨lists, t, hrun⟩

end Misnamed

end Resolution.State

namespace Registry

variable {r : Registry}

/-- The walk for some names in a registry, where every fragment stands under its own name, ends, and
it has at most as many turns as names were given and stand in the lists of fragments, one more for
each fragment that spreads something, and one more for the given names; a turn that fails counts
too.  On the way the list of a fragment is put on the stack once at most, and there are never more
lists on the stack than collected fragments and one. -/
theorem resolve_ends_within_bound (r : Registry) (names : List String) :
    (∃ turns lists t, State.Run r.lookup? (.start names) turns lists t ∧
      (t.step r.lookup? = .done t ∧ (r.resolve names).outcome = .ok t.found.reverse ∧
          turns ≤ r.turnBound names ∨
        ∃ e, t.step r.lookup? = .failed t e ∧ (r.resolve names).outcome = .error e ∧
          turns + 1 ≤ r.turnBound names)) ∧
      ∀ turns lists t, State.Run r.lookup? (.start names) turns lists t →
        turns ≤ r.turnBound names ∧ (lists.map Pending.owner).Nodup ∧
          (∀ p ∈ lists, ∃ f, r.lookup? f.name = some f ∧ p = ⟨some f.name, f.spreads⟩) ∧
          t.pending.length ≤ 1 + t.found.length := by
  have hruns : ∀ turns lists t, State.Run r.lookup? (.start names) turns lists t →
      turns ≤ r.turnBound names ∧ (lists.map Pending.owner).Nodup ∧
        (∀ p ∈ lists, ∃ f, r.lookup? f.name = some f ∧ p = ⟨some f.name, f.spreads⟩) ∧
        t.pending.length ≤ 1 + t.found.length := by
    intro turns lists t hrun
    have hspent := hrun.spent
    have hexplored := hrun.explored
    rw [hspent.lists_eq]
    refine ⟨Nat.le_trans (Nat.le_add_right _ _) hspent.paid, State.nodup_owners hexplored.nodup,
      fun p hp => ?_, hspent.height⟩
    obtain ⟨f, hf, rfl⟩ := List.mem_map.1 hp
    exact ⟨f, hexplored.registered f (List.mem_filter.1 hf).1, rfl⟩
  refine ⟨?_, hruns⟩
  obtain ⟨t, ⟨turns, lists, hrun⟩, hend⟩ :=
    State.exists_end (P := fun t => ∃ turns lists, State.Run r.lookup? (.start names) turns lists t)
      (fun s t ⟨turns, lists, hrun⟩ hstep => ⟨_, _, hrun.next hstep⟩) ⟨0, [], .refl⟩
  refine ⟨turns, lists, t, hrun, ?_⟩
  rcases hend with ⟨hdone, houtcome⟩ | ⟨e, hfailed, houtcome⟩
  · exact .inl ⟨hdone, houtcome, (hruns turns lists t hrun).1⟩
  · have hpos := State.budget_pos_of_failed hfailed
    have hpaid := hrun.spent.paid
    exact .inr ⟨e, hfailed, houtcome, by omega⟩

/-- A walk over a cycle that ends well, and one that fails behind the cycle. -/
theorem resolve_ends_within_bound_tangled :
    tangled.turnBound ["A"] = 9 ∧ tangled.turnBound ["C"] = 9 ∧
      (∃ turns lists t, State.Run tangled.lookup? (.start ["A"]) turns lists t ∧ turns ≤ 9 ∧
        t.step tangled.lookup? = .done t) ∧
      ∃ turns lists t, State.Run tangled.lookup? (.start ["C"]) turns lists t ∧ turns + 1 ≤ 9 ∧
        t.step tangled.lookup? = .failed t ⟨some "C", "D"⟩ ∧ (lists.map Pending.owner).Nodup ∧
        t.pending.length ≤ 1 + t.found.length := by
  have hbound : tangled.turnBound ["A"] = 9 := by decide
  have hbound' : tangled.turnBound ["C"] = 9 := by decide
  obtain ⟨⟨turns, lists, t, hrun, hend⟩, -⟩ := resolve_ends_within_bound tangled ["A"]
  obtain ⟨⟨turns', lists', t', hrun', hend'⟩, hruns'⟩ := resolve_ends_within_bound tangled ["C"]
  obtain ⟨-, hnodup, -, hheight⟩ := hruns' _ _ _ hrun'
  rw [outcome_resolve_tangled_A, hbound] at hend
  rw [outcome_resolve_tangled_C, hbound'] at hend'
  rcases hend with ⟨hdone, -, hturns⟩ | ⟨e, -, he, -⟩
  · rcases hend' with ⟨-, hok, -⟩ | ⟨e, hfailed, he, hturns'⟩
    · cases hok
    · cases he
      exact ⟨hbound, hbound', ⟨_, _, _, hrun, hturns, hdone⟩,
        _, _, _, hrun', hturns', hfailed, hnodup, hheight⟩
  · cases he

end Registry

end FragmentAssembly
