/-
FragmentAssembly/Proofs/Resolution/Coverage.lean

What a resolution covers.  A name is needed (`Registry.Needs`) when it is one of the given
names or stands in the fragment under a needed name; the graph may have cycles, and needed
names may be missing from the registry.

`State.Explored` is the invariant of the walk.  What carries it is `closed`: every name that
the given names or a collected fragment ask for was met, or still stands in a list on the
stack.  So when the stack is empty, everything asked for was met (`covers_of_ok`); and when
the walk fails, `owned` tells who asked for the missing name (`blames_of_error`).
-/
import FragmentAssembly.Proofs.Registry.Runs
import FragmentAssembly.Proofs.Resolution.Recursion

namespace FragmentAssembly

open Resolution

/-- The names that a list of names needs, directly or through the fragments of needed
names. -/
inductive Registry.Needs (r : Registry) (names : List String) : String → Prop
  /-- A given name. -/
  | given {name} (h : name ∈ names) : Needs r names name
  /-- A name that the fragment of a needed name spreads. -/
  | spread {owner f name} (h : Needs r names owner) (hreg : r.lookup? owner = some f)
      (hname : name ∈ f.spreads) : Needs r names name

/-- The names that are asked for once some fragments are collected: the given ones, and
those that the fragments spread. -/
def Asked (names : List String) (found : List Fragment) (name : String) : Prop :=
  name ∈ names ∨ ∃ f ∈ found, name ∈ f.spreads

/-- More fragments ask for more. -/
theorem Asked.mono {names : List String} {found more : List Fragment} {name : String}
    (h : Asked names found name) (hsub : found ⊆ more) : Asked names more name := by
  rcases h with h | ⟨f, hf, hname⟩
  · exact .inl h
  · exact .inr ⟨f, hsub hf, hname⟩

theorem asked_cons {names : List String} {found : List Fragment} {f : Fragment} {name : String} :
    Asked names (f :: found) name ↔ name ∈ f.spreads ∨ Asked names found name := by
  constructor
  · rintro (h | ⟨g, hg, hname⟩)
    · exact .inr (.inl h)
    · rcases List.mem_cons.1 hg with rfl | hg
      · exact .inl hname
      · exact .inr (.inr ⟨g, hg, hname⟩)
  · rintro (h | h)
    · exact .inr ⟨f, List.mem_cons_self, h⟩
    · exact h.mono (List.subset_cons_self f found)

namespace Resolution.State

variable {r : Registry} {names : List String} {s t : State}

/-- A list on the stack holds names of its owner: of a collected fragment, or of the
operation itself. -/
def Owned (names : List String) (found : List Fragment) (p : Pending) : Prop :=
  (p.owner = none ∧ p.names ⊆ names) ∨ ∃ f ∈ found, p.owner = some f.name ∧ p.names ⊆ f.spreads

theorem Owned.asked {found : List Fragment} {p : Pending} (h : Owned names found p)
    {name : String} (hname : name ∈ p.names) : Asked names found name := by
  rcases h with ⟨-, hsub⟩ | ⟨f, hf, -, hsub⟩
  · exact .inl (hsub hname)
  · exact .inr ⟨f, hf, hsub hname⟩

theorem Owned.cons {found : List Fragment} {p : Pending} (h : Owned names found p)
    (f : Fragment) : Owned names (f :: found) p := by
  rcases h with h | ⟨g, hg, h⟩
  · exact .inl h
  · exact .inr ⟨g, List.mem_cons_of_mem _ hg, h⟩

/-- What is left of a list has the same owner. -/
theorem Owned.tail {found : List Fragment} {owner : Option String} {name : String}
    {rest : List String} (h : Owned names found ⟨owner, name :: rest⟩) :
    Owned names found ⟨owner, rest⟩ := by
  rcases h with ⟨howner, hsub⟩ | ⟨f, hf, howner, hsub⟩
  · exact .inl ⟨howner, fun n hn => hsub (List.mem_cons_of_mem _ hn)⟩
  · exact .inr ⟨f, hf, howner, fun n hn => hsub (List.mem_cons_of_mem _ hn)⟩

theorem mem_push {f : Fragment} {pending : List Pending} {p : Pending} :
    p ∈ push f pending ↔ (p = ⟨some f.name, f.spreads⟩ ∧ f.spreads ≠ []) ∨ p ∈ pending := by
  unfold push
  split <;> simp_all

/-- The invariant of the walk that takes the given names. -/
structure Explored (r : Registry) (names : List String) (s : State) : Prop where
  /-- Met names are the names of collected fragments. -/
  seen : ∀ name, s.seen.contains name = true ↔ name ∈ s.found.map Fragment.name
  /-- Collected fragments are those of their names. -/
  registered : ∀ f ∈ s.found, r.lookup? f.name = some f
  nodup : (s.found.map Fragment.name).Nodup
  /-- A fragment was asked for before it was collected; the last one stands first. -/
  traced : ∀ later f earlier, s.found = later ++ f :: earlier → Asked names earlier f.name
  owned : ∀ p ∈ s.pending, Owned names s.found p
  /-- What was asked for was met or is still to be taken. -/
  closed : ∀ name, Asked names s.found name →
    s.seen.contains name = true ∨ ∃ p ∈ s.pending, name ∈ p.names

theorem explored_start (r : Registry) (names : List String) : Explored r names (start names) where
  seen := by simp [start]
  registered := by simp [start]
  nodup := by simp [start]
  traced := by simp [start]
  owned := by
    intro p hp
    obtain rfl : p = ⟨none, names⟩ := List.mem_singleton.1 hp
    exact .inl ⟨rfl, fun _ h => h⟩
  closed := by
    rintro name (h | ⟨f, hf, -⟩)
    · exact .inr ⟨⟨none, names⟩, List.mem_singleton_self _, h⟩
    · cases hf

theorem Explored.owned_head {p : Pending} {outer : List Pending} (h : Explored r names s)
    (hp : s.pending = p :: outer) : Owned names s.found p := by
  refine h.owned p ?_
  rw [hp]
  exact List.mem_cons_self

theorem Explored.owned_outer {p : Pending} {outer : List Pending} (h : Explored r names s)
    (hp : s.pending = p :: outer) : ∀ q ∈ outer, Owned names s.found q := by
  intro q hq
  refine h.owned q ?_
  rw [hp]
  exact List.mem_cons_of_mem _ hq

/-! ### What one turn keeps -/

/-- Leaving a list that is used up forgets no name. -/
theorem Explored.leave {owner : Option String} {outer : List Pending} (h : Explored r names s)
    (hp : s.pending = ⟨owner, []⟩ :: outer) : Explored r names { s with pending := outer } :=
  { h with
    owned := h.owned_outer hp
    closed := by
      intro name hname
      rcases h.closed name hname with hseen | ⟨p, hmem, hin⟩
      · exact .inl hseen
      · rw [hp] at hmem
        rcases List.mem_cons.1 hmem with rfl | hmem
        · cases hin
        · exact .inr ⟨p, hmem, hin⟩ }

/-- The name that a turn takes from a list is the only one that it takes away. -/
theorem exists_pending_of_taken {owner : Option String} {name other : String}
    {rest : List String} {outer : List Pending}
    (h : ∃ p ∈ (⟨owner, name :: rest⟩ :: outer : List Pending), other ∈ p.names) :
    other = name ∨ ∃ p ∈ (⟨owner, rest⟩ :: outer : List Pending), other ∈ p.names := by
  obtain ⟨p, hmem, hin⟩ := h
  rcases List.mem_cons.1 hmem with rfl | hmem
  · rcases List.mem_cons.1 hin with rfl | hin
    · exact .inl rfl
    · exact .inr ⟨_, List.mem_cons_self, hin⟩
  · exact .inr ⟨p, List.mem_cons_of_mem _ hmem, hin⟩

/-- Passing over a name that was met. -/
theorem Explored.skip {owner : Option String} {name : String} {rest skipped : List String}
    {outer : List Pending} (h : Explored r names s)
    (hp : s.pending = ⟨owner, name :: rest⟩ :: outer) (hseen : s.seen.contains name = true) :
    Explored r names { s with pending := ⟨owner, rest⟩ :: outer, skipped } :=
  { h with
    owned := by
      intro p hmem
      rcases List.mem_cons.1 hmem with rfl | hmem
      · exact (h.owned_head hp).tail
      · exact h.owned_outer hp p hmem
    closed := by
      intro other hother
      rcases h.closed other hother with hmet | hpend
      · exact .inl hmet
      · rw [hp] at hpend
        rcases exists_pending_of_taken hpend with rfl | hpend
        · exact .inl hseen
        · exact .inr hpend }

/-- Collecting a new fragment.  Its own spreads are asked for now, and they stand on the
stack, unless there are none. -/
theorem Explored.collect {owner : Option String} {rest : List String} {outer : List Pending}
    {f : Fragment} (h : Explored r names s)
    (hp : s.pending = ⟨owner, f.name :: rest⟩ :: outer) (hnew : s.seen.contains f.name = false)
    (hreg : r.lookup? f.name = some f) :
    Explored r names { s with
      found := f :: s.found
      seen := s.seen.insert f.name
      pending := push f (⟨owner, rest⟩ :: outer) } where
  seen := by
    intro name
    rw [Std.HashSet.contains_insert, Bool.or_eq_true, beq_iff_eq, h.seen name, List.map_cons,
      List.mem_cons]
    exact or_congr_left eq_comm
  registered := by
    intro g hg
    rcases List.mem_cons.1 hg with rfl | hg
    · exact hreg
    · exact h.registered g hg
  nodup := by
    rw [List.map_cons, List.nodup_cons]
    refine ⟨fun hmem => ?_, h.nodup⟩
    rw [(h.seen f.name).2 hmem] at hnew
    cases hnew
  traced := by
    intro later g earlier heq
    -- either the new fragment itself, or one that was collected before
    rcases List.cons_eq_append_iff.1 heq with ⟨-, hhead⟩ | ⟨before, -, hfound⟩
    · cases hhead
      exact (h.owned_head hp).asked List.mem_cons_self
    · exact h.traced before g earlier hfound
  owned := by
    intro p hmem
    rcases mem_push.1 hmem with ⟨rfl, -⟩ | hmem
    · exact .inr ⟨f, List.mem_cons_self, rfl, fun _ hn => hn⟩
    · rcases List.mem_cons.1 hmem with rfl | hmem
      · exact (h.owned_head hp).tail.cons f
      · exact (h.owned_outer hp p hmem).cons f
  closed := by
    intro name hname
    show (s.seen.insert f.name).contains name = true ∨ _
    rw [Std.HashSet.contains_insert, Bool.or_eq_true, beq_iff_eq]
    rcases asked_cons.1 hname with hin | hname
    -- asked for by the new fragment: its list now stands on the stack
    · refine .inr ⟨⟨some f.name, f.spreads⟩, mem_push.2 (.inl ⟨rfl, ?_⟩), hin⟩
      exact List.ne_nil_of_mem hin
    · rcases h.closed name hname with hmet | hpend
      · exact .inl (.inr hmet)
      · rw [hp] at hpend
        -- asked for before: it stands where it stood, unless it is the one that was met now
        rcases exists_pending_of_taken hpend with rfl | ⟨p, hmem, hin⟩
        · exact .inl (.inl rfl)
        · exact .inr ⟨p, mem_push.2 (.inr hmem), hin⟩

/-- Every turn keeps the invariant. -/
theorem Explored.step (h : Explored r names s) (hstep : s.step r.lookup? = .next t) :
    Explored r names t := by
  cases takes_of_step hstep with
  | leave hp => exact h.leave hp
  | skip hp hseen => exact h.skip hp hseen
  | collect hp hseen hreg => exact h.collect hp hseen hreg

end Resolution.State

/-! ### What a resolution answers -/

namespace Registry

variable {r : Registry} {names : List String}

/-- What is asked for is needed, if every fragment was asked for by earlier ones, the last one
standing first. -/
theorem needs_of_asked {found : List Fragment} (hreg : ∀ f ∈ found, r.lookup? f.name = some f)
    (htraced : ∀ later f earlier, found = later ++ f :: earlier → Asked names earlier f.name)
    {name : String} (h : Asked names found name) : r.Needs names name := by
  induction found generalizing name with
  | nil =>
    rcases h with h | ⟨f, hf, -⟩
    · exact .given h
    · cases hf
  | cons f found ih =>
    have hrest : ∀ n, Asked names found n → r.Needs names n := by
      intro n hn
      refine ih (fun g hg => hreg g (List.mem_cons_of_mem _ hg)) ?_ hn
      intro later g earlier heq
      exact htraced (f :: later) g earlier (by rw [heq]; rfl)
    rcases asked_cons.1 h with hin | h
    · exact .spread (hrest f.name (htraced [] f found rfl)) (hreg f List.mem_cons_self) hin
    · exact hrest name h

/-- The fragments that a list of names needs: each once, and after it was asked for; and
nothing else is asked for. -/
structure Covers (r : Registry) (names : List String) (fs : List Fragment) : Prop where
  registered : ∀ f ∈ fs, r.lookup? f.name = some f
  nodup : (fs.map Fragment.name).Nodup
  traced : ∀ earlier f later, fs = earlier ++ f :: later → Asked names earlier f.name
  closed : ∀ name, Asked names fs name → name ∈ fs.map Fragment.name
  needs : ∀ name ∈ fs.map Fragment.name, r.Needs names name

/-- The names of a cover are just those that are asked for. -/
theorem Covers.mem_names_iff_asked {fs : List Fragment} (h : r.Covers names fs) (name : String) :
    name ∈ fs.map Fragment.name ↔ Asked names fs name := by
  refine ⟨fun hmem => ?_, h.closed name⟩
  obtain ⟨f, hf, rfl⟩ := List.mem_map.1 hmem
  obtain ⟨earlier, later, rfl⟩ := List.append_of_mem hf
  rcases h.traced earlier f later rfl with hn | ⟨g, hg, hn⟩
  · exact .inl hn
  · exact .inr ⟨g, List.mem_append_left _ hg, hn⟩

/-- The names of a cover are just the needed ones. -/
theorem Covers.mem_names_iff_needs {fs : List Fragment} (h : r.Covers names fs) (name : String) :
    name ∈ fs.map Fragment.name ↔ r.Needs names name := by
  refine ⟨h.needs name, fun hneeds => ?_⟩
  -- a path of spreads from a given name never leaves the cover
  induction hneeds with
  | given hn => exact h.closed _ (.inl hn)
  | @spread owner f name _ hreg hn ih =>
    obtain ⟨g, hg, rfl⟩ := List.mem_map.1 ih
    obtain rfl : g = f := Option.some.inj ((h.registered g hg).symm.trans hreg)
    exact h.closed _ (.inr ⟨g, hg, hn⟩)

/-- An undefined reference is to a needed name, and stands in the operation itself or in the
fragment under a needed name. -/
structure Blames (r : Registry) (names : List String) (e : UndefinedReference) : Prop where
  needed : r.Needs names e.name
  unregistered : r.lookup? e.name = none
  referencedBy : (e.referencedBy = none ∧ e.name ∈ names) ∨
    ∃ f, e.referencedBy = some f.name ∧ r.Needs names f.name ∧ r.lookup? f.name = some f ∧
      e.name ∈ f.spreads

end Registry

namespace Resolution.State

variable {r : Registry} {names : List String} {s : State}

/-- Every collected fragment is needed. -/
theorem Explored.needs {f : Fragment} (h : Explored r names s) (hf : f ∈ s.found) :
    r.Needs names f.name := by
  obtain ⟨later, earlier, heq⟩ := List.append_of_mem hf
  refine Registry.needs_of_asked h.registered h.traced ((h.traced later f earlier heq).mono ?_)
  intro g hg
  rw [heq]
  exact List.mem_append_right _ (List.mem_cons_of_mem _ hg)

theorem Explored.covers (h : Explored r names s) (hp : s.pending = []) :
    r.Covers names s.found.reverse where
  registered := fun f hf => h.registered f (List.mem_reverse.1 hf)
  nodup := by
    rw [List.map_reverse]
    exact (List.reverse_perm _).nodup_iff.2 h.nodup
  traced := by
    intro earlier f later heq
    have hfound : s.found = later.reverse ++ f :: earlier.reverse := by
      rw [← List.reverse_reverse s.found, heq, List.reverse_append, List.reverse_cons,
        List.append_assoc]
      rfl
    exact (h.traced _ f _ hfound).mono fun g hg => List.mem_reverse.1 hg
  closed := by
    intro name hname
    rw [List.map_reverse, List.mem_reverse]
    -- nothing stands on the stack any more, so the name was met
    rcases h.closed name (hname.mono fun f hf => List.mem_reverse.1 hf) with hseen | ⟨p, hmem, -⟩
    · exact (h.seen name).1 hseen
    · rw [hp] at hmem
      cases hmem
  needs := by
    intro name hname
    rw [List.map_reverse, List.mem_reverse] at hname
    obtain ⟨f, hf, rfl⟩ := List.mem_map.1 hname
    exact h.needs hf

theorem Explored.blames {e : UndefinedReference} {rest : List String} {outer : List Pending}
    (h : Explored r names s) (hp : s.pending = ⟨e.referencedBy, e.name :: rest⟩ :: outer)
    (hreg : r.lookup? e.name = none) : r.Blames names e := by
  have howned := h.owned_head hp
  refine ⟨Registry.needs_of_asked h.registered h.traced (howned.asked List.mem_cons_self), hreg, ?_⟩
  rcases howned with ⟨hnone, hsub⟩ | ⟨f, hf, hsome, hsub⟩
  · exact .inl ⟨hnone, hsub List.mem_cons_self⟩
  · exact .inr ⟨f, hsome, h.needs hf, h.registered f hf, hsub List.mem_cons_self⟩

end Resolution.State

namespace Registry

variable {r : Registry} {names : List String}

/-- A resolution answers a cover of the names, or it blames someone for a missing one. -/
theorem covers_or_blames (r : Registry) (names : List String) :
    (∃ fs, (r.resolve names).outcome = .ok fs ∧ r.Covers names fs) ∨
      ∃ e, (r.resolve names).outcome = .error e ∧ r.Blames names e := by
  obtain ⟨t, ht, ⟨hdone, hout⟩ | ⟨e, hfail, hout⟩⟩ :=
    State.exists_end (fun s t hs hstep => State.Explored.step hs hstep)
      (State.explored_start r names)
  · exact .inl ⟨_, hout, ht.covers (State.pending_of_done hdone)⟩
  · obtain ⟨rest, outer, hp, -, hreg⟩ := State.exists_of_failed hfail
    exact .inr ⟨e, hout, ht.blames hp hreg⟩

theorem covers_of_ok {fs : List Fragment} (h : (r.resolve names).outcome = .ok fs) :
    r.Covers names fs := by
  rcases covers_or_blames r names with ⟨gs, hgs, hcovers⟩ | ⟨e, he, -⟩
  · rw [h] at hgs
    cases hgs
    exact hcovers
  · rw [h] at he
    cases he

theorem blames_of_error {e : UndefinedReference} (h : (r.resolve names).outcome = .error e) :
    r.Blames names e := by
  rcases covers_or_blames r names with ⟨gs, hgs, -⟩ | ⟨e', he, hblames⟩
  · rw [h] at hgs
    cases hgs
  · rw [h] at he
    cases he
    exact hblames

/-- A resolution succeeds just when every needed name is registered.  It then answers the
fragments under the needed names, each once and after a spread of its name, if the operation
itself does not ask for it.  When it fails, it names a needed name that is not registered,
and who spreads it. -/
theorem resolve_covers_needs (r : Registry) (names : List String) :
    ((∃ fs, (r.resolve names).outcome = .ok fs) ↔
        ∀ name, r.Needs names name → ∃ f, r.lookup? name = some f) ∧
      (∀ fs, (r.resolve names).outcome = .ok fs →
        (fs.map Fragment.name).Nodup ∧
          (∀ name, name ∈ fs.map Fragment.name ↔ r.Needs names name) ∧
          (∀ f ∈ fs, r.lookup? f.name = some f) ∧
          ∀ earlier f later, fs = earlier ++ f :: later →
            f.name ∈ names ∨ ∃ g ∈ earlier, f.name ∈ g.spreads) ∧
      ∀ e, (r.resolve names).outcome = .error e →
        r.Needs names e.name ∧ r.lookup? e.name = none ∧
          ((e.referencedBy = none ∧ e.name ∈ names) ∨
            ∃ owner f, e.referencedBy = some owner ∧ r.Needs names owner ∧
              r.lookup? owner = some f ∧ e.name ∈ f.spreads) := by
  refine ⟨⟨?_, ?_⟩, ?_, ?_⟩
  · rintro ⟨fs, hfs⟩ name hname
    have hcovers := covers_of_ok hfs
    obtain ⟨f, hf, rfl⟩ := List.mem_map.1 ((hcovers.mem_names_iff_needs name).2 hname)
    exact ⟨f, hcovers.registered f hf⟩
  · intro hall
    rcases covers_or_blames r names with ⟨fs, hfs, -⟩ | ⟨e, -, hblames⟩
    · exact ⟨fs, hfs⟩
    · obtain ⟨f, hf⟩ := hall e.name hblames.needed
      rw [hblames.unregistered] at hf
      cases hf
  · intro fs hfs
    have hcovers := covers_of_ok hfs
    exact ⟨hcovers.nodup, hcovers.mem_names_iff_needs, hcovers.registered, hcovers.traced⟩
  · intro e he
    obtain ⟨hneeded, hmissing, howner⟩ := blames_of_error he
    refine ⟨hneeded, hmissing, ?_⟩
    rcases howner with hself | ⟨f, hsome, hneeds, hreg, hin⟩
    · exact .inl hself
    · exact .inr ⟨f.name, f, hsome, hneeds, hreg, hin⟩

/-- Two fragments that spread each other, and one that spreads the first of them and a
fragment that nobody registered. -/
def tangled : Registry :=
  ((empty.register ⟨"A", "fragment A on T { ...B }", ["B"]⟩).register
    ⟨"B", "fragment B on T { ...A }", ["A"]⟩).register
      ⟨"C", "fragment C on T { ...A ...D }", ["A", "D"]⟩

theorem reachable_tangled : tangled.Reachable :=
  ((Reachable.empty.write (by decide) (by decide)).write (by decide) (by decide)).write
    (by decide) (by decide)

theorem lookup?_tangled_A :
    tangled.lookup? "A" = some ⟨"A", "fragment A on T { ...B }", ["B"]⟩ := by
  simp [tangled, lookup?_register]

theorem lookup?_tangled_B :
    tangled.lookup? "B" = some ⟨"B", "fragment B on T { ...A }", ["A"]⟩ := by
  simp [tangled, lookup?_register]

theorem lookup?_tangled_C :
    tangled.lookup? "C" = some ⟨"C", "fragment C on T { ...A ...D }", ["A", "D"]⟩ := by
  simp [tangled, lookup?_register]

theorem lookup?_tangled_D : tangled.lookup? "D" = none := by
  simp [tangled, lookup?_register]

/-- The two fragments of the cycle are collected once each. -/
theorem outcome_resolve_tangled_A :
    (tangled.resolve ["A"]).outcome =
      .ok [⟨"A", "fragment A on T { ...B }", ["B"]⟩, ⟨"B", "fragment B on T { ...A }", ["A"]⟩] := by
  rw [outcome_resolve, gather_of_new (by decide) lookup?_tangled_A,
    gather_of_new (by decide) lookup?_tangled_B, gather_of_met (by decide), gather_nil]
  simp [Except.bind]

/-- The missing fragment is found after the cycle was walked. -/
theorem outcome_resolve_tangled_C :
    (tangled.resolve ["C"]).outcome = .error ⟨some "C", "D"⟩ := by
  rw [outcome_resolve, gather_of_new (by decide) lookup?_tangled_C,
    gather_of_new (by decide) lookup?_tangled_A, gather_of_new (by decide) lookup?_tangled_B,
    gather_of_met (by decide), gather_nil]
  simp [Except.bind, gather_of_unregistered, lookup?_tangled_D]

theorem resolve_covers_needs_tangled :
    tangled.Reachable ∧
      (∃ fs, (tangled.resolve ["A"]).outcome = .ok fs ∧ (fs.map Fragment.name).Nodup ∧
        ∀ name, name ∈ fs.map Fragment.name ↔ tangled.Needs ["A"] name) ∧
      (tangled.resolve ["C"]).outcome = .error ⟨some "C", "D"⟩ ∧
      tangled.Needs ["C"] "D" ∧ tangled.lookup? "D" = none := by
  obtain ⟨-, hok, -⟩ := resolve_covers_needs tangled ["A"]
  obtain ⟨-, -, herror⟩ := resolve_covers_needs tangled ["C"]
  obtain ⟨hnodup, hnames, -⟩ := hok _ outcome_resolve_tangled_A
  obtain ⟨hneeded, hmissing, -⟩ := herror _ outcome_resolve_tangled_C
  exact ⟨reachable_tangled, ⟨_, outcome_resolve_tangled_A, hnodup, hnames⟩,
    outcome_resolve_tangled_C, hneeded, hmissing⟩

end Registry

end FragmentAssembly
