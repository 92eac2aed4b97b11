/-
FragmentAssembly/Proofs/Registry/FreeName.lean

The search for a free name finds one, as long as a number is left for it (`Registry.NumberLeft`):
one behind the number used last, before the last word is passed.  Then it finds the first such
number (`NumberLeft.exists_freeName`).  `Registry.freeNumber` is given only as many tries as there
are fragments, less one, and takes the next number untried when they are used up.  They reach that
number all the same: the base and the numbered names behind it are all different (`numbered_inj`,
`numbered_ne_base`), so if more of them were taken, there would be more taken names than fragments.

A number is left wherever the number used last is not as close to the last word as there are
fragments (`numberLeft_of_lt`).
-/
import FragmentAssembly.Registry.Naming
import Mathlib.Data.Nat.Find
import Std.Data.String.ToNat

namespace FragmentAssembly

/-! ### Numbered names -/

@[simp] theorem numbered_inj {base : String} {m n : Nat} :
    numbered base m = numbered base n ↔ m = n := by
  rw [numbered, numbered, String.append_right_inj, Nat.toString_eq_repr, Nat.toString_eq_repr,
    Nat.repr_inj]

@[simp] theorem numbered_ne_base (base : String) (n : Nat) : numbered base n ≠ base := by
  intro h
  rw [numbered, String.append_eq_left_iff, Nat.toString_eq_repr] at h
  exact Nat.repr_ne_empty h

namespace Registry

variable {r : Registry} {base : String}

/-! ### Counting taken names -/

/-- There are no more different taken names than fragments. -/
theorem length_le_size {names : List String} (hnodup : names.Nodup)
    (htaken : ∀ name ∈ names, r.contains name = true) : names.length ≤ r.size := by
  have hsub : names ⊆ r.fragments.keys := by
    intro name hname
    exact Std.ExtTreeMap.mem_keys.2 (Std.ExtTreeMap.contains_iff_mem.1 (htaken name hname))
  rw [size, ← Std.ExtTreeMap.length_keys]
  exact hnodup.length_le_of_subset hsub

/-- A base and so many different numbered names behind it that are all taken are no more than the
fragments. -/
theorem lt_size_of_taken (hbase : r.contains base = true) (number : Nat → Nat) (tries : Nat)
    (hdiffer : ∀ i j, i < j → j < tries → number i ≠ number j)
    (htaken : ∀ i < tries, r.contains (numbered base (number i)) = true) : tries < r.size := by
  have hnodup : (base :: (List.range tries).map fun i => numbered base (number i)).Nodup := by
    rw [List.nodup_cons, List.mem_map]
    refine ⟨fun ⟨i, _, hi⟩ => numbered_ne_base base _ hi, List.pairwise_map.2 ?_⟩
    refine List.pairwise_lt_range.imp_of_mem fun {i j} _ hj hlt heq => ?_
    exact hdiffer i j hlt (List.mem_range.1 hj) (numbered_inj.1 heq)
  have hall : ∀ name ∈ base :: (List.range tries).map fun i => numbered base (number i),
      r.contains name = true := by
    intro name hname
    rcases List.mem_cons.1 hname with hname | hname
    · rw [hname]
      exact hbase
    · obtain ⟨i, hi, rfl⟩ := List.mem_map.1 hname
      exact htaken i (List.mem_range.1 hi)
  have hlength := length_le_size hnodup hall
  rwa [List.length_cons, List.length_map, List.length_range] at hlength

/-! ### First free numbers -/

/-- Not all the next numbers make taken names, as many as there are fragments. -/
theorem exists_free (hbase : r.contains base = true) (last : Nat) :
    ∃ number, last < number ∧ r.contains (numbered base number) = false := by
  by_contra hnone
  refine Nat.lt_irrefl r.size (lt_size_of_taken hbase (last + 1 + ·) r.size (by omega) ?_)
  intro i _
  by_contra htaken
  exact hnone ⟨last + 1 + i, by omega, Bool.eq_false_iff.2 htaken⟩

/-- Behind every number there is a first free one. -/
theorem exists_firstFree (hbase : r.contains base = true) (last : Nat) :
    ∃ number, r.FirstFree base last number := by
  have hexists := exists_free hbase last
  obtain ⟨hlt, hfree⟩ := Nat.find_spec hexists
  refine ⟨Nat.find hexists, hlt, hfree, fun k hk hsmall => ?_⟩
  have hnot := Nat.find_min hexists hsmall
  rw [not_and, Bool.not_eq_false] at hnot
  exact hnot hk

/-- No free number comes before the first one. -/
theorem FirstFree.le {last number other : Nat} (h : r.FirstFree base last number)
    (hlt : last < other) (hfree : r.contains (numbered base other) = false) : number ≤ other := by
  by_contra hless
  rw [h.taken other hlt (Nat.lt_of_not_le hless)] at hfree
  cases hfree

/-- The first free number is no further away than there are fragments. -/
theorem FirstFree.le_add_size {last number : Nat} (h : r.FirstFree base last number)
    (hbase : r.contains base = true) : number ≤ last + r.size := by
  have hlt := h.lt
  have htries : number - last - 1 < r.size := by
    -- the numbers before the first free one are taken
    refine lt_size_of_taken hbase (last + 1 + ·) _ (by omega) fun i hi => ?_
    exact h.taken _ (by omega) (by omega)
  omega

/-! ### What the search finds -/

/-- A number is left for a base: if it is taken, then a number behind the one used last, but before
the last word is passed, makes a free name. -/
def NumberLeft (r : Registry) (base : String) : Prop :=
  r.contains base = true →
    ∃ number, r.counter base < number ∧ number < r.words ∧
      r.contains (numbered base number) = false

/-- A number is left if the last word is further away than there are fragments. -/
theorem numberLeft_of_lt (h : r.counter base + r.size < r.words) : r.NumberLeft base := by
  intro hbase
  obtain ⟨number, hfirst⟩ := exists_firstFree hbase (r.counter base)
  exact ⟨number, hfirst.lt, Nat.lt_of_le_of_lt (hfirst.le_add_size hbase) h, hfirst.free⟩

/-- Where a number is left, the first free one is found. -/
theorem NumberLeft.exists_freeName (h : r.NumberLeft base) (hbase : r.contains base = true) :
    ∃ number, r.FirstFree base (r.counter base) number ∧
      r.freeName base = (numbered base number, r.setCounter base number) := by
  obtain ⟨number, hfirst⟩ := exists_firstFree hbase (r.counter base)
  obtain ⟨other, hlt, hword, hfree⟩ := h hbase
  have hle := hfirst.le_add_size hbase
  refine ⟨number, hfirst, ?_⟩
  -- the tries reach the first free number, and it comes no later than the one that is left
  rw [freeName_of_taken hbase,
    freeNumber_eq hfirst (Nat.lt_of_le_of_lt (hfirst.le hlt hfree) hword) (by omega)]

/-- Where a number is left, the name that is found is free. -/
theorem NumberLeft.contains_freeName (h : r.NumberLeft base) :
    r.contains (r.freeName base).1 = false := by
  cases hbase : r.contains base with
  | false =>
    rw [freeName_of_free hbase]
    exact hbase
  | true =>
    obtain ⟨number, hfirst, heq⟩ := h.exists_freeName hbase
    rw [heq]
    exact hfirst.free

end Registry

end FragmentAssembly
