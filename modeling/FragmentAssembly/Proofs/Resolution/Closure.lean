/-
FragmentAssembly/Proofs/Resolution/Closure.lean

Resolving as a closure.  Taking one list of names and then another is taking both at once
(`gather_append`), so a failure is a failure of every longer list, and what was collected stays
at the front (`Gathers.isPrefix`).  Names that were met add nothing (`gathers_of_subset`).

A successful run of the recursion is written down as a relation (`Gathers`), one case for each
thing that can happen to a name.  Resolving the names of a result again comes down to one
induction on it (`Gathers.again`).  Those names fall into segments: a new name, the names that
were collected below it, and the names of what was collected after it.  The first collects the
second again, which are then passed over, and the third is the same matter over.
-/
import FragmentAssembly.Proofs.Operation.SelfContained

namespace FragmentAssembly

namespace Registry

variable {r : Registry} {owner : Option String} {names more : List String}
  {met mid all : List Fragment}

/-! ### One list after another -/

/-- Gathering goes from left to right: first one list, then the other with what was met by
then. -/
theorem gather_append (r : Registry) (owner : Option String) (names more : List String)
    (met : List Fragment) :
    r.gather owner (names ++ more) met =
      (r.gather owner names met).bind (r.gather owner more) := by
  induction names generalizing met with
  | nil =>
    rw [gather_nil]
    rfl
  | cons name names ih =>
    rw [List.cons_append]
    by_cases hmet : name ∈ met.map Fragment.name
    · rw [gather_of_met hmet, gather_of_met hmet, ih]
    · rcases hreg : r.lookup? name with - | f
      · rw [gather_of_unregistered hmet hreg, gather_of_unregistered hmet hreg]
        rfl
      · rw [gather_of_new hmet hreg, gather_of_new hmet hreg]
        rcases r.gather (some f.name) f.spreads (met ++ [f]) with e | inner
        · rfl
        · exact ih inner

/-! ### Successful runs -/

/-- That the names can be gathered, from what was met before, and what was met then. -/
inductive Gathers (r : Registry) : List String → List Fragment → List Fragment → Prop
  /-- No name is left. -/
  | done {met : List Fragment} : Gathers r [] met met
  /-- The name was met before. -/
  | skip {name : String} {names : List String} {met all : List Fragment}
      (hmet : name ∈ met.map Fragment.name) (rest : Gathers r names met all) :
      Gathers r (name :: names) met all
  /-- The fragment is new, and is met before what it spreads. -/
  | collect {name : String} {names : List String} {met mid all : List Fragment} {f : Fragment}
      (hnew : name ∉ met.map Fragment.name) (hreg : r.lookup? name = some f)
      (inner : Gathers r f.spreads (met ++ [f]) mid)
      (rest : Gathers r names mid all) : Gathers r (name :: names) met all

theorem gathers_of_collect {found : { all // r.unmet all ≤ r.unmet met }}
    (h : r.collect owner names met = .ok found) : r.Gathers names met found.val := by
  fun_induction collect r owner names met with
  | case1 =>
    cases h
    exact .done
  | case2 owner met name names hmet ih => exact .skip hmet (ih h)
  | case3 => cases h
  | case4 => cases h
  | case5 => cases h
  | case6 owner met name names hnew f hreg hlt inner hinner hcollect all hall hrest ih ih' =>
    cases h
    exact .collect hnew hreg (ih hcollect) (ih' hrest)

theorem Gathers.gather (h : r.Gathers names met all) (owner : Option String) :
    r.gather owner names met = .ok all := by
  induction h generalizing owner with
  | done => exact gather_nil
  | skip hmet _ ih => rw [gather_of_met hmet, ih]
  | @collect name names met mid all f hnew hreg _ _ ih ih' =>
    rw [gather_of_new hnew hreg, ih]
    exact ih' owner

/-- To whom the names belong counts only where gathering fails. -/
theorem gathers_iff (owner : Option String) :
    r.Gathers names met all ↔ r.gather owner names met = .ok all := by
  refine ⟨fun h => h.gather owner, fun h => ?_⟩
  rw [Registry.gather] at h
  rcases hcollect : r.collect owner names met with e | found
  · rw [hcollect] at h
    cases h
  · rw [hcollect] at h
    cases h
    exact gathers_of_collect hcollect

theorem Gathers.append (h : r.Gathers names met mid) (h' : r.Gathers more mid all) :
    r.Gathers (names ++ more) met all := by
  rw [gathers_iff none, gather_append, h.gather none]
  exact h'.gather none

/-- Names that were met add nothing. -/
theorem gathers_of_subset (h : ∀ name ∈ names, name ∈ met.map Fragment.name) :
    r.Gathers names met met := by
  induction names with
  | nil => exact .done
  | cons name names ih =>
    obtain ⟨hname, hnames⟩ := List.forall_mem_cons.1 h
    exact .skip hname (ih hnames)

/-- What was met stays, and stays in front. -/
theorem Gathers.isPrefix (h : r.Gathers names met all) : met <+: all := by
  induction h with
  | done => exact List.prefix_rfl
  | skip _ _ ih => exact ih
  | collect _ _ _ _ ih ih' => exact ((List.prefix_append _ _).trans ih).trans ih'

/-- The names of what was newly met, gathered in their order, are met again in that order. -/
theorem Gathers.again (h : r.Gathers names met all) {new : List Fragment}
    (hnew : all = met ++ new) : r.Gathers (new.map Fragment.name) met all := by
  induction h generalizing new with
  | done =>
    obtain rfl : new = [] := by simpa using hnew
    exact .done
  | skip _ _ ih => exact ih hnew
  | @collect name names met mid all f hfresh hreg inner rest _ ih =>
    -- the new fragment, what was met below it, and what was met after that
    obtain ⟨below, rfl⟩ := inner.isPrefix
    obtain ⟨after, rfl⟩ := rest.isPrefix
    obtain rfl : new = f :: (below ++ after) := by
      simpa using hnew.symm
    obtain rfl := name_of_lookup? hreg
    rw [List.map_cons, List.map_append]
    refine .collect hfresh hreg inner ((gathers_of_subset fun n hn => ?_).append (ih rfl))
    rw [List.map_append]
    exact List.mem_append_right _ hn

/-! ### Resolutions -/

variable {fs : List Fragment}

theorem resolve_eq_ok_iff : (r.resolve names).outcome = .ok fs ↔ r.Gathers names [] fs := by
  rw [gathers_iff none, outcome_resolve]

/-- What a list of names fails with, every longer list fails with. -/
theorem resolve_append_of_error {e : UndefinedReference}
    (h : (r.resolve names).outcome = .error e) :
    (r.resolve (names ++ more)).outcome = .error e := by
  rw [outcome_resolve] at h ⊢
  rw [gather_append, h]
  rfl

/-- What a list of names resolves to stands in front of what every longer list resolves to. -/
theorem isPrefix_of_resolve_append (h : (r.resolve names).outcome = .ok fs)
    (hall : (r.resolve (names ++ more)).outcome = .ok all) : fs <+: all := by
  have hmore : r.gather none more fs = .ok all := by
    rw [outcome_resolve] at h hall
    rw [← hall, gather_append, h]
    rfl
  exact ((gathers_iff none).2 hmore).isPrefix

/-- Names of what is resolved already change nothing. -/
theorem resolve_append_of_subset (h : (r.resolve names).outcome = .ok fs)
    (hmore : ∀ name ∈ more, name ∈ fs.map Fragment.name) :
    (r.resolve (names ++ more)).outcome = .ok fs :=
  resolve_eq_ok_iff.2 ((resolve_eq_ok_iff.1 h).append (gathers_of_subset hmore))

/-- The names of what is resolved are resolved to the same. -/
theorem resolve_map_name (h : (r.resolve names).outcome = .ok fs) :
    (r.resolve (fs.map Fragment.name)).outcome = .ok fs :=
  resolve_eq_ok_iff.2 ((resolve_eq_ok_iff.1 h).again rfl)

/-- Resolving is a closure.  A failure stays when more names follow; what was resolved stays in
front; names of what was resolved add nothing, neither to the result nor to the document of an
operation that spreads them once more; and the names of the result are resolved to it, in its
order. -/
theorem resolve_closure (r : Registry) (names more : List String) :
    (∀ e, (r.resolve names).outcome = .error e →
        (r.resolve (names ++ more)).outcome = .error e) ∧
      (∀ fs all, (r.resolve names).outcome = .ok fs →
        (r.resolve (names ++ more)).outcome = .ok all → fs <+: all) ∧
      (∀ fs, (r.resolve names).outcome = .ok fs →
        (∀ name ∈ more, name ∈ fs.map Fragment.name) →
          (r.resolve (names ++ more)).outcome = .ok fs ∧
            ∀ kind input, Spread.ofText (input.definition kind) ∈ [names, names ++ more] →
              ∃ op, (r.assemble kind input).outcome = .ok op ∧
                op.document = document (input.definition kind) fs) ∧
      ∀ fs, (r.resolve names).outcome = .ok fs →
        (r.resolve (fs.map Fragment.name)).outcome = .ok fs := by
  refine ⟨fun e => resolve_append_of_error, fun fs all => isPrefix_of_resolve_append, ?_,
    fun fs => resolve_map_name⟩
  intro fs hfs hmore
  have hlonger := resolve_append_of_subset hfs hmore
  refine ⟨hlonger, fun kind input hspreads => ?_⟩
  have hresolve : (r.resolve (Spread.ofText (input.definition kind))).outcome = .ok fs := by
    simp only [List.mem_cons, List.not_mem_nil, or_false] at hspreads
    rcases hspreads with hspreads | hspreads
    · rwa [hspreads]
    · rwa [hspreads]
  obtain ⟨op, hop, -, hdocument⟩ := exists_assemble hresolve
  exact ⟨op, hop, hdocument⟩

/-- The tangled registry with the missing fragment, which makes one more cycle. -/
def completed : Registry :=
  tangled.register ⟨"D", "fragment D on T { ...C }", ["C"]⟩

theorem reachable_completed : completed.Reachable :=
  reachable_tangled.write (by decide) (by decide)

/-- One cycle is collected as a whole before the other one. -/
theorem outcome_resolve_completed :
    (completed.resolve ["A"]).outcome =
        .ok [⟨"A", "fragment A on T { ...B }", ["B"]⟩, ⟨"B", "fragment B on T { ...A }", ["A"]⟩] ∧
      (completed.resolve ["A", "C"]).outcome =
        .ok [⟨"A", "fragment A on T { ...B }", ["B"]⟩, ⟨"B", "fragment B on T { ...A }", ["A"]⟩,
          ⟨"C", "fragment C on T { ...A ...D }", ["A", "D"]⟩,
          ⟨"D", "fragment D on T { ...C }", ["C"]⟩] := by
  have hlookup : ∀ n, n ≠ "D" → completed.lookup? n = tangled.lookup? n := by
    intro n hn
    rw [completed, lookup?_register, if_neg fun heq => hn heq.symm]
  have hA := (hlookup "A" (by decide)).trans lookup?_tangled_A
  have hB := (hlookup "B" (by decide)).trans lookup?_tangled_B
  have hC := (hlookup "C" (by decide)).trans lookup?_tangled_C
  have hD : completed.lookup? "D" = some ⟨"D", "fragment D on T { ...C }", ["C"]⟩ :=
    lookup?_register_self _ _
  have hcycle : completed.Gathers ["B"] [⟨"A", "fragment A on T { ...B }", ["B"]⟩] _ :=
    .collect (by simp) hB (.skip (by simp) .done) .done
  constructor
  · exact resolve_eq_ok_iff.2 (.collect (by simp) hA hcycle .done)
  · exact resolve_eq_ok_iff.2 (.collect (by simp) hA hcycle
      (.collect (by simp) hC (.skip (by simp) (.collect (by simp) hD (.skip (by simp) .done) .done))
        .done))

theorem resolve_closure_completed :
    completed.Reachable ∧ tangled.Reachable ∧
      (∃ fs all, (completed.resolve ["A"]).outcome = .ok fs ∧
        (completed.resolve (["A"] ++ ["C"])).outcome = .ok all ∧ fs <+: all ∧
        (completed.resolve (fs.map Fragment.name)).outcome = .ok fs ∧
        (completed.resolve (all.map Fragment.name)).outcome = .ok all ∧
        (completed.resolve (["A"] ++ ["B", "A", "B"])).outcome = .ok fs ∧
        ∃ op, (completed.assemble .query (.text "{ ...A ...B ...A ...B }")).outcome = .ok op ∧
          op.document = document "{ ...A ...B ...A ...B }" fs) ∧
      (tangled.resolve ["C"]).outcome = .error ⟨some "C", "D"⟩ ∧
      (tangled.resolve (["C"] ++ ["A"])).outcome = .error ⟨some "C", "D"⟩ := by
  obtain ⟨hok, hall⟩ := outcome_resolve_completed
  obtain ⟨-, hprefix, -, hagain⟩ := resolve_closure completed ["A"] ["C"]
  obtain ⟨-, -, hsame, -⟩ := resolve_closure completed ["A"] ["B", "A", "B"]
  obtain ⟨-, -, -, hagain'⟩ := resolve_closure completed ["A", "C"] []
  obtain ⟨hfails, -⟩ := resolve_closure tangled ["C"] ["A"]
  obtain ⟨hlonger, hdocument⟩ := hsame _ hok (by decide)
  have hspreads : Spread.ofText "{ ...A ...B ...A ...B }" = ["A"] ++ ["B", "A", "B"] := by
    rw [Spread.ofText_eq_all]
    decide
  have hwritten := hdocument .query (.text "{ ...A ...B ...A ...B }") (by
    rw [OperationInput.definition, hspreads]
    simp)
  exact ⟨reachable_completed, reachable_tangled, ⟨_, _, hok, hall, hprefix _ _ hok hall,
    hagain _ hok, hagain' _ hall, hlonger, hwritten⟩, outcome_resolve_tangled_C,
    hfails _ outcome_resolve_tangled_C⟩

end Registry

end FragmentAssembly
