/-
FragmentAssembly/Proofs/Registry/Counters.lean

Remembered numbers save time and nothing else.  The naive rule for a derived name takes the
base if it is free, and else the base with the least number that makes it free
(`Registry.LeastFree`), trying the numbers from one on.  The registry goes on from the number
that it remembers instead.

Both find the same name, because no number is remembered that is not backed by fragments:
the base and all its numbers up to that one are taken (`Registry.Backed`).  The search alone
would break this, as it remembers a number that is still free; what keeps it is that the
fragment under that very name is registered next (`Backed.derived`).  Fragments never leave a
registry one by one, so nothing else can break it.  A session with its copies holds no other
registries (`Session.reachable_after`).
-/
import FragmentAssembly.Proofs.Registry.Adding
import FragmentAssembly.Proofs.Registry.Runs

namespace FragmentAssembly

namespace Registry

variable {r : Registry} {base : String} {f : Fragment}

theorem contains_register {name : String} :
    (r.register f).contains name = true ↔ f.name = name ∨ r.contains name = true := by
  rw [contains_eq_isSome, contains_eq_isSome, lookup?_register]
  split <;> simp_all

/-! ### The invariant -/

/-- Every remembered number is backed: the base is taken, and so are its numbers up to that
one. -/
def Backed (r : Registry) : Prop :=
  ∀ base n, r.counters[base]? = some n →
    1 ≤ n ∧ r.contains base = true ∧
      ∀ k, 1 ≤ k → k ≤ n → r.contains (numbered base k) = true

theorem backed_empty : Backed empty := by
  intro base n h
  simp [empty] at h

theorem Backed.register (h : r.Backed) (f : Fragment) : (r.register f).Backed := by
  intro base n hn
  obtain ⟨hpos, hbase, htaken⟩ := h base n hn
  refine ⟨hpos, contains_register.2 (.inr hbase), fun k hk hkn => ?_⟩
  exact contains_register.2 (.inr (htaken k hk hkn))

/-- The numbers that a search leaves out are taken. -/
theorem Backed.contains_of_le_counter (h : r.Backed) {k : Nat} (hk : 1 ≤ k)
    (hle : k ≤ r.counter base) : r.contains (numbered base k) = true := by
  unfold counter at hle
  cases hcounter : r.counters[base]? with
  | none =>
    rw [hcounter] at hle
    simp only [Option.getD_none] at hle
    omega
  | some n =>
    rw [hcounter] at hle
    exact (h base n hcounter).2.2 k hk hle

/-- Every number before the first free one is taken. -/
theorem Backed.contains_of_lt (h : r.Backed) {number k : Nat}
    (hfirst : r.FirstFree base (r.counter base) number) (hk : 1 ≤ k) (hlt : k < number) :
    r.contains (numbered base k) = true := by
  by_cases hle : k ≤ r.counter base
  · exact h.contains_of_le_counter hk hle
  · exact hfirst.taken k (by omega) hlt

/-- So the first free number is not greater than the number of fragments. -/
theorem Backed.firstFree_le_size (h : r.Backed) (hbase : r.contains base = true) {number : Nat}
    (hfirst : r.FirstFree base (r.counter base) number) : number ≤ r.size := by
  have hless : number - 1 < r.size := by
    refine lt_size_of_taken hbase (· + 1) _ (by omega) fun i hi => ?_
    exact h.contains_of_lt hfirst (by omega) (by omega)
  omega

/-- And a number is left for every base: the last word is not passed by counting fragments. -/
theorem Backed.numberLeft (h : r.Backed) (base : String) : r.NumberLeft base := by
  intro hbase
  obtain ⟨number, hfirst⟩ := exists_firstFree hbase (r.counter base)
  have hle := h.firstFree_le_size hbase hfirst
  exact ⟨number, hfirst.lt, Nat.lt_of_le_of_lt hle r.size_lt_words, hfirst.free⟩

/-- A number is backed again once the name that was found with it is registered. -/
theorem Backed.derived (h : r.Backed) (hname : f.name = (r.freeName base).1) :
    ((r.freeName base).2.register f).Backed := by
  cases hbase : r.contains base with
  | false =>
    rw [freeName_of_free hbase]
    exact h.register f
  | true =>
    obtain ⟨number, hfirst, heq⟩ := (h.numberLeft base).exists_freeName hbase
    rw [heq] at hname ⊢
    intro other n hn
    -- the registry that remembers the new number has the fragments of the old one
    have hmono : ∀ name, r.contains name = true →
        ((r.setCounter base number).register f).contains name = true :=
      fun name hin => contains_register.2 (.inr hin)
    simp only [counters_register, setCounter, Std.ExtTreeMap.getElem?_insert] at hn
    split at hn
    -- the number that the search found, and numbers of other bases
    · rename_i heq
      obtain rfl : base = other := by simpa using heq
      cases hn
      have hlt := hfirst.lt
      refine ⟨by omega, hmono base hbase, fun k hk hkn => ?_⟩
      rcases Nat.lt_or_eq_of_le hkn with hkn | rfl
      · exact hmono _ (h.contains_of_lt hfirst hk hkn)
      · exact contains_register.2 (.inl hname)
    · obtain ⟨hpos, hother, htaken⟩ := h other n hn
      exact ⟨hpos, hmono other hother, fun k hk hkn => hmono _ (htaken k hk hkn)⟩

theorem Backed.adds {ε : Type} {outcome : Except ε Fragment} {s : Registry} (h : r.Backed)
    (hadds : r.Adds outcome s) : s.Backed := by
  cases hadds with
  | refused e => exact h
  | defined name definition => exact h.register _
  | derived base definition => exact h.derived rfl

/-- Every action keeps the numbers backed. -/
theorem Backed.perform (h : r.Backed) (action : Action) : (r.perform action).2.Backed := by
  cases action with
  | add input => exact h.adds (r.adds_add input)
  | load files path => exact h.adds (r.adds_load files path)
  | register f => exact h.register f
  | reset => exact backed_empty
  | lookup name => exact h
  | resolve names => exact h
  | assemble kind input => exact h

theorem Reachable.backed (h : r.Reachable) : r.Backed := by
  induction h with
  | empty => exact backed_empty
  | perform _ _ ih => exact ih.perform _

/-! ### The naive rule -/

/-- The name that the naive rule gives to a base: the base itself if it is free, and else the
base with the least number that makes it free. -/
inductive LeastFree (r : Registry) (base : String) : String → Prop
  | unnumbered (hfree : r.contains base = false) : LeastFree r base base
  | numbered {k : Nat} (htaken : r.contains base = true) (hk : 1 ≤ k)
      (hfree : r.contains (numbered base k) = false)
      (hleast : ∀ j, 1 ≤ j → j < k → r.contains (FragmentAssembly.numbered base j) = true) :
      LeastFree r base (FragmentAssembly.numbered base k)

/-- The naive rule leaves no choice. -/
theorem LeastFree.unique {name name' : String} (h : r.LeastFree base name)
    (h' : r.LeastFree base name') : name = name' := by
  cases h with
  | unnumbered hfree =>
    cases h' with
    | unnumbered _ => rfl
    | numbered htaken _ _ _ => simp_all
  | @numbered k htaken hk hfree hleast =>
    cases h' with
    | unnumbered hfree' => simp_all
    | @numbered k' _ hk' hfree' hleast' =>
      rcases Nat.lt_trichotomy k k' with hlt | rfl | hlt
      · have := hleast' k hk hlt
        simp_all
      · rfl
      · have := hleast k' hk' hlt
        simp_all

/-- The search for a free name follows the naive rule. -/
theorem Backed.leastFree_freeName (h : r.Backed) (base : String) :
    r.LeastFree base (r.freeName base).1 := by
  cases hbase : r.contains base with
  | false =>
    rw [freeName_of_free hbase]
    exact .unnumbered hbase
  | true =>
    obtain ⟨number, hfirst, heq⟩ := (h.numberLeft base).exists_freeName hbase
    rw [heq]
    exact .numbered hbase (Nat.one_le_of_lt hfirst.lt) hfirst.free
      fun j hj hlt => h.contains_of_lt hfirst hj hlt

/-- Without fragments there is no number to remember. -/
theorem Backed.eq_empty_iff (h : r.Backed) : r = empty ↔ r.size = 0 := by
  constructor
  · rintro rfl
    exact size_empty
  · intro hsize
    have hfragments : r.fragments = ∅ := Std.ExtTreeMap.eq_empty_iff_size_eq_zero.2 hsize
    have hcounters : r.counters = ∅ := by
      refine Std.ExtTreeMap.ext_getElem? fun base => ?_
      cases hcounter : r.counters[base]? with
      | none => simp
      | some n =>
        obtain ⟨-, hbase, -⟩ := h base n hcounter
        rw [contains, hfragments] at hbase
        simp at hbase
    exact Registry.ext hfragments hcounters

/-! ### Derived names -/

/-- Remembered numbers are backed by fragments; so a draft with a type but neither a header
nor a name gets the name of the naive rule; and a registry without fragments is the empty one,
as it remembers nothing either. -/
theorem derived_name_iff_leastFree (h : r.Reachable) :
    (∀ base n, r.counters[base]? = some n →
        1 ≤ n ∧ r.contains base = true ∧
          ∀ k, 1 ≤ k → k ≤ n → r.contains (numbered base k) = true) ∧
      (∀ (d : FragmentDraft) (typeName : String), d.name = none → d.typeName = some typeName →
        Header.leads d.definition = false →
        ∃ f, (r.add (.draft d)).1.outcome = .ok f ∧
          ∀ name, f.name = name ↔ r.LeastFree (derivedName typeName) name) ∧
      (r = empty ↔ r.size = 0) := by
  have hbacked := h.backed
  refine ⟨hbacked, fun d typeName hname htype hleads => ?_, hbacked.eq_empty_iff⟩
  obtain ⟨hok, -⟩ := add_derived (r := r) hname htype hleads rfl
  -- the naive rule leaves no choice, so it is enough that the search follows it
  refine ⟨_, hok, fun name => ⟨?_, fun hleast => ?_⟩⟩
  · rintro rfl
    exact hbacked.leastFree_freeName _
  · exact (hbacked.leastFree_freeName _).unique hleast

/-! ### A number behind the fragments -/

/-- One fragment with a derived name. -/
def lone : Registry :=
  empty.register (.define "FragmentUser" (headed "FragmentUser" "User" "{ id }"))

/-- Another fragment for the same type, which made the registry remember the number one, and a
fragment whose text declares the name with the number two. -/
def crowded : Registry :=
  ((lone.setCounter "FragmentUser" 1).register
    (.define "FragmentUser1" (headed "FragmentUser1" "User" "{ name }"))).register
      ⟨"FragmentUser2", "fragment FragmentUser2 on User { id }", []⟩

theorem contains_lone {name : String} : lone.contains name = true ↔ "FragmentUser" = name := by
  rw [lone, contains_register]
  simp [contains_eq_isSome, Fragment.define]

theorem contains_crowded {name : String} :
    crowded.contains name = true ↔
      "FragmentUser2" = name ∨ "FragmentUser1" = name ∨ "FragmentUser" = name := by
  have hlone : (lone.setCounter "FragmentUser" 1).contains name = true ↔ "FragmentUser" = name :=
    contains_lone
  rw [crowded, contains_register, contains_register, hlone]
  rfl

/-- The second search for a name meets one fragment, and no number. -/
theorem freeName_lone :
    lone.freeName (derivedName "User") =
      ("FragmentUser1", lone.setCounter "FragmentUser" 1) := by
  have hsize : lone.size = 1 := by
    simp [lone, size_register, contains_eq_isSome]
  have hcounter : lone.counter (derivedName "User") = 0 := by
    simp [lone, counter, empty]
  rw [freeName_of_taken (contains_lone.2 (by decide)), hsize, hcounter]
  rfl

theorem reachable_lone : lone.Reachable :=
  Reachable.empty.derive (Header.leads_of_first? (by decide))
    (freeName_of_free (by simp [contains_eq_isSome]))

theorem reachable_crowded : crowded.Reachable := by
  refine Reachable.write ?_ (by decide) (by decide)
  exact reachable_lone.derive (Header.leads_of_first? (by decide)) freeName_lone

theorem leastFree_crowded : crowded.LeastFree "FragmentUser" "FragmentUser3" := by
  have hfree : crowded.contains "FragmentUser3" = false := by
    rw [Bool.eq_false_iff, Ne, contains_crowded]
    decide
  refine .numbered (contains_crowded.2 (by decide)) (by decide : 1 ≤ 3) hfree fun j hj hlt => ?_
  obtain rfl | rfl : j = 1 ∨ j = 2 := by omega
  · exact contains_crowded.2 (by decide)
  · exact contains_crowded.2 (by decide)

theorem derived_name_iff_leastFree_crowded :
    crowded.Reachable ∧ crowded.counters["FragmentUser"]? = some 1 ∧
      crowded.contains "FragmentUser1" = true ∧
      (∃ f, (crowded.add (.draft ⟨"{ id }", none, some "User"⟩)).1.outcome = .ok f ∧
        f.name = "FragmentUser3") ∧
      crowded ≠ empty := by
  obtain ⟨hbacked, hnamed, hempty⟩ := derived_name_iff_leastFree reachable_crowded
  have hcounter : crowded.counters["FragmentUser"]? = some 1 := by
    simp [crowded, setCounter]
  obtain ⟨-, hbase, htaken⟩ := hbacked _ _ hcounter
  obtain ⟨f, hok, hname⟩ := hnamed ⟨"{ id }", none, some "User"⟩ "User" rfl rfl
    (Header.leads_of_first? (by decide))
  refine ⟨reachable_crowded, hcounter, htaken 1 (by decide) (by decide),
    ⟨f, hok, (hname _).2 leastFree_crowded⟩, ?_⟩
  intro heq
  have hsize := hempty.1 heq
  have hone : [("FragmentUser" : String)].length ≤ crowded.size :=
    length_le_size (by simp) (by simp [hbase])
  rw [hsize] at hone
  exact absurd hone (by decide)

end Registry

end FragmentAssembly
