/-
FragmentAssembly/Proofs/Registry/NewNames.lean

Derived names are new.  A draft that gets its name from its type is accepted under a name that was
free, so it replaces nothing (`exists_new_of_derives`).  This asks nothing of what the registry
remembers and of what its fragments are called, but that a number is left for the name
(`Registry.NumberLeft`): a number is a machine word, and a count that passes the last word would go
on from zero.  A number is left as long as the number used last is not as close to the last word as
there are fragments, and always in a registry that actions lead to, where the numbers are backed by
fragments (`Backed.numberLeft`).

As names that are taken stay taken until the registry is emptied, the names that one run
derives are all different (`derived_name_new`), also where the names of one type look like
numbered names of another.
-/
import FragmentAssembly.Proofs.Registry.Counters
import FragmentAssembly.Proofs.Registry.History

namespace FragmentAssembly

namespace Registry

variable {r : Registry}

/-! ### One derived name -/

/-- Where a number is left, the name that is found has a number from one on, or none. -/
theorem NumberLeft.freeName_cases {base : String} (h : r.NumberLeft base) :
    (r.freeName base).1 = base ∨ ∃ k, 1 ≤ k ∧ (r.freeName base).1 = numbered base k := by
  cases hbase : r.contains base with
  | false =>
    rw [freeName_of_free hbase]
    exact .inl rfl
  | true =>
    obtain ⟨number, hfirst, heq⟩ := h.exists_freeName hbase
    rw [heq]
    exact .inr ⟨number, Nat.one_le_of_lt hfirst.lt, rfl⟩

/-- A fragment under a derived name takes a free name, and nothing else changes. -/
theorem exists_new_of_derives {d : FragmentDraft} {typeName : String} (h : d.Derives typeName)
    (hleft : r.NumberLeft (derivedName typeName)) :
    ∃ f, (r.add (.draft d)).1.outcome = .ok f ∧ r.lookup? f.name = none ∧
      (f.name = derivedName typeName ∨
        ∃ k, 1 ≤ k ∧ f.name = numbered (derivedName typeName) k) ∧
      (r.add (.draft d)).2.lookup? f.name = some f ∧
      (∀ name, name ≠ f.name → (r.add (.draft d)).2.lookup? name = r.lookup? name) ∧
      (r.add (.draft d)).2.size = r.size + 1 := by
  have hfree := hleft.contains_freeName
  have hname := hleft.freeName_cases
  have hfragments := fragments_freeName r (derivedName typeName)
  rcases hfound : r.freeName (derivedName typeName) with ⟨chosen, s⟩
  rw [hfound] at hfree hname hfragments
  obtain ⟨hok, hadd⟩ := add_derived h.unnamed h.typed h.headless hfound
  refine ⟨_, hok, ?_, hname, ?_, fun name hne => ?_, ?_⟩
  · exact contains_eq_false_iff.1 hfree
  · rw [hadd, lookup?_register_self]
  · rw [hadd, lookup?_register, if_neg hne.symm, lookup?_congr hfragments]
  · have hfree' : s.contains chosen = false := by
      rw [contains, hfragments]
      exact hfree
    rw [hadd, size_register, Fragment.define, hfree', size, hfragments]
    rfl

/-! ### The derived names of a run -/

/-- The answer of an action in a run is what the registry before it answers. -/
theorem getElem?_performAll {actions : List Action} {i : Nat} {action : Action}
    (h : actions[i]? = some action) (r : Registry) :
    (r.performAll actions).1[i]? = some ((r.performAll (actions.take i)).2.perform action).1 := by
  induction actions generalizing r i with
  | nil => cases h
  | cons first actions ih =>
    cases i with
    | zero =>
      obtain rfl : first = action := by simpa using h
      rfl
    | succ i => exact ih (i := i) h (r.perform first).2

/-- What is taken after one action of a run is taken before every later one. -/
theorem contains_of_lt {actions : List Action} (hreset : Action.reset ∉ actions) {i j : Nat}
    (hij : i < j) {action : Action} (hi : actions[i]? = some action) {name : String}
    (hin : ((r.performAll (actions.take i)).2.perform action).2.contains name = true) :
    (r.performAll (actions.take j)).2.contains name = true := by
  have hsplit : actions.take j = actions.take i ++ action :: (actions.take j).drop (i + 1) := by
    conv_lhs => rw [← List.take_append_drop (i + 1) (actions.take j)]
    rw [List.take_take, Nat.min_eq_left hij, List.take_add_one, hi, List.append_assoc]
    rfl
  rw [hsplit, performAll_append, performAll_cons]
  refine contains_performAll (fun hmem => hreset ?_) hin
  exact List.mem_of_mem_take (List.mem_of_mem_drop hmem)

/-- A draft that gets its name from its type is accepted under a name that was free: the name
of the type, or that name with a number from one on.  Its fragment stands under the name
afterwards, every other name gives what it gave, and there is one fragment more.  So in a run
without a reset no two such drafts get the same name.

This holds where a number is left for the name: as long as the number used last and the number of
fragments are together less than the number of words, and after every run of actions from a registry
that actions lead to. -/
theorem derived_name_new (r : Registry) :
    (∀ (d : FragmentDraft) (typeName : String), d.Derives typeName →
        r.NumberLeft (derivedName typeName) →
        ∃ f, (r.add (.draft d)).1.outcome = .ok f ∧ r.lookup? f.name = none ∧
          (f.name = derivedName typeName ∨
            ∃ k, 1 ≤ k ∧ f.name = numbered (derivedName typeName) k) ∧
          (r.add (.draft d)).2.lookup? f.name = some f ∧
          (∀ name, name ≠ f.name → (r.add (.draft d)).2.lookup? name = r.lookup? name) ∧
          (r.add (.draft d)).2.size = r.size + 1) ∧
      (∀ (actions : List Action) (i j : Nat) (d e : FragmentDraft) (typeName typeName' : String),
        Action.reset ∉ actions → i < j →
        actions[i]? = some (.add (.draft d)) → d.Derives typeName →
        (r.performAll (actions.take i)).2.NumberLeft (derivedName typeName) →
        actions[j]? = some (.add (.draft e)) → e.Derives typeName' →
        (r.performAll (actions.take j)).2.NumberLeft (derivedName typeName') →
        ∃ f g, (r.performAll actions).1[i]?.map Reply.answer = some (.added (.ok f)) ∧
          (r.performAll actions).1[j]?.map Reply.answer = some (.added (.ok g)) ∧
          f.name ≠ g.name) ∧
      (∀ base, r.counter base + r.size < wordCount → r.NumberLeft base) ∧
      (r.Reachable → ∀ actions : List Action, (∀ action ∈ actions, action.Honest) →
        ∀ base, (r.performAll actions).2.NumberLeft base) := by
  refine ⟨fun d typeName h hleft => exists_new_of_derives h hleft, ?_, fun base hsum => ?_,
    fun hr actions honest base => (hr.performAll honest).backed.numberLeft base⟩
  · intro actions i j d e typeName typeName' hreset hij hi hd hleft hj he hleft'
    obtain ⟨f, hf, -, -, hfound, -, -⟩ := exists_new_of_derives hd hleft
    obtain ⟨g, hg, hfree, -⟩ := exists_new_of_derives he hleft'
    refine ⟨f, g, ?_, ?_, fun heq => ?_⟩
    · rw [getElem?_performAll hi, perform_add, hf]
      rfl
    · rw [getElem?_performAll hj, perform_add, hg]
      rfl
    -- the first name is still taken when the second one is chosen
    · have hin : (r.performAll (actions.take j)).2.contains f.name = true := by
        refine contains_of_lt hreset hij hi ?_
        rw [perform_add, contains_eq_isSome, hfound]
        rfl
      rw [contains_eq_isSome, heq, hfree] at hin
      cases hin
  · exact numberLeft_of_lt (Nat.lt_of_lt_of_le hsum (Nat.le_max_left _ _))

/-- A run that derives a second name for one type, which is the first name of another type.  In
between, a text takes the second name of the other type. -/
def overlapping : List Action :=
  [.add (.draft ⟨"{ id }", none, some "User"⟩), .add (.text "fragment FragmentUser11 on T { id }"),
    .add (.draft ⟨"{ name }", none, some "User1"⟩)]

theorem honest_overlapping : ∀ action ∈ overlapping, action.Honest := by
  intro action haction
  simp only [overlapping, List.mem_cons, List.not_mem_nil, or_false] at haction
  rcases haction with rfl | rfl | rfl <;> trivial

theorem derived_name_new_overlapping :
    Action.reset ∉ overlapping ∧
      FragmentDraft.Derives ⟨"{ id }", none, some "User"⟩ "User" ∧
      FragmentDraft.Derives ⟨"{ name }", none, some "User1"⟩ "User1" ∧
      lone.NumberLeft (derivedName "User") ∧
      (∃ f, (lone.add (.draft ⟨"{ id }", none, some "User"⟩)).1.outcome = .ok f ∧
        lone.lookup? f.name = none) ∧
      ∃ f g, (lone.performAll overlapping).1[0]?.map Reply.answer = some (.added (.ok f)) ∧
        (lone.performAll overlapping).1[2]?.map Reply.answer = some (.added (.ok g)) ∧
        f.name ≠ g.name := by
  have hreset : Action.reset ∉ overlapping := by simp [overlapping]
  have huser : FragmentDraft.Derives ⟨"{ id }", none, some "User"⟩ "User" :=
    ⟨rfl, rfl, Header.leads_of_first? (by decide)⟩
  have huser1 : FragmentDraft.Derives ⟨"{ name }", none, some "User1"⟩ "User1" :=
    ⟨rfl, rfl, Header.leads_of_first? (by decide)⟩
  obtain ⟨hone, hrun, hsum, hreached⟩ := derived_name_new lone
  have hleft : lone.NumberLeft (derivedName "User") := hsum _ (by decide)
  have halong : ∀ n base, (lone.performAll (overlapping.take n)).2.NumberLeft base :=
    fun n => hreached reachable_lone _ fun action h =>
      honest_overlapping action (List.mem_of_mem_take h)
  obtain ⟨f, hok, hfree, -⟩ := hone _ _ huser hleft
  exact ⟨hreset, huser, huser1, hleft, ⟨f, hok, hfree⟩,
    hrun overlapping 0 2 _ _ "User" "User1" hreset (by decide) rfl huser (halong 0 _) rfl huser1
      (halong 2 _)⟩

end Registry

end FragmentAssembly
