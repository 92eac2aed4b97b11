/-
FragmentAssembly/Proofs/Registry/NumberSearch.lean

The search for a free number as a loop without a limit (`Registry.Search`): the remembered number is
counted up until it makes a free name.  The search of `Registry.freeNumber` is given a number of
tries; the loop is not, and yet it ends, after no more rounds than there are fragments.  The base is
taken, and every round but the last meets one more taken name, all of them different
(`exists_search`).  What carries this is that the numbers differ, so it holds as well where they are
words and go on from zero behind the last word (`wordSucc`), as long as there are no more fragments
than words.  So the tries are never used up before the loop ends, and the search finds what the loop
ends with, also behind the last word (`Search.getLast?_eq`).

In a registry that actions lead to the last word is never passed: a remembered number is backed by
that many fragments beside the base, so it is below their number, and the number that is found is
not above it (`Backed.lt_size`, `Backed.firstFree_le_size`).
-/
import FragmentAssembly.Proofs.Registry.Counters

namespace FragmentAssembly

namespace Registry

variable {r : Registry} {base : String} {next : Nat → Nat} {last number : Nat} {tried : List Nat}

/-! ### The loop -/

/-- The loop that counts a number up until it makes a free name.  It is told by the numbers that it
tries, one in each round. -/
inductive Search (r : Registry) (base : String) (next : Nat → Nat) : Nat → List Nat → Prop
  | free {last : Nat} (hfree : r.contains (numbered base (next last)) = false) :
      Search r base next last [next last]
  | taken {last : Nat} {tried : List Nat}
      (htaken : r.contains (numbered base (next last)) = true)
      (hrest : Search r base next (next last) tried) : Search r base next last (next last :: tried)

/-- The loop has no choice. -/
theorem Search.unique {other : List Nat} (h : r.Search base next last tried)
    (h' : r.Search base next last other) : tried = other := by
  induction h generalizing other with
  | free hfree =>
    cases h' with
    | free _ => rfl
    | taken htaken _ =>
      rw [hfree] at htaken
      cases htaken
  | taken htaken _ ih =>
    cases h' with
    | free hfree =>
      rw [hfree] at htaken
      cases htaken
    | taken _ hrest => rw [ih hrest]

/-- So if it ends within some rounds at all, it always does. -/
theorem Search.ends_of_exists {rounds : Nat}
    (h : ∃ tried, r.Search base next last tried ∧ tried.length ≤ rounds) :
    (∃ tried, r.Search base next last tried) ∧
      ∀ tried, r.Search base next last tried → tried.length ≤ rounds := by
  obtain ⟨tried, hsearch, hlength⟩ := h
  refine ⟨⟨tried, hsearch⟩, fun other hother => ?_⟩
  rwa [hother.unique hsearch]

/-- The loop ends within some rounds, or all their numbers make taken names. -/
theorem search_or_taken {place : Nat → Nat} (hnext : ∀ i, next (place i) = place (i + 1))
    (rounds start : Nat) :
    (∃ tried, r.Search base next (place start) tried ∧ tried.length ≤ rounds) ∨
      ∀ i < rounds, r.contains (numbered base (place (start + 1 + i))) = true := by
  induction rounds generalizing start with
  | zero => exact .inr fun i hi => absurd hi (Nat.not_lt_zero i)
  | succ rounds ih =>
    cases hfirst : r.contains (numbered base (place (start + 1))) with
    | false =>
      rw [← hnext] at hfirst
      exact .inl ⟨_, .free hfirst, Nat.succ_le_succ (Nat.zero_le _)⟩
    | true =>
      rcases ih (start + 1) with ⟨tried, hrest, hlength⟩ | htaken
      · rw [← hnext] at hfirst hrest
        exact .inl ⟨_, .taken hfirst hrest, Nat.succ_le_succ hlength⟩
      · refine .inr fun i hi => ?_
        rcases i with - | i
        · exact hfirst
        · rw [show start + 1 + (i + 1) = start + 1 + 1 + i by omega]
          exact htaken i (Nat.lt_of_succ_lt_succ hi)

/-- Where as many numbers as there are fragments differ from each other, the loop ends with one of
them. -/
theorem exists_search (place : Nat → Nat) (hbase : r.contains base = true)
    (hnext : ∀ i, next (place i) = place (i + 1))
    (hdiffer : ∀ i j, 0 < i → i < j → j ≤ r.size → place i ≠ place j) :
    ∃ tried, r.Search base next (place 0) tried ∧ tried.length ≤ r.size := by
  refine (search_or_taken hnext r.size 0).resolve_right fun htaken => ?_
  refine absurd (lt_size_of_taken hbase (fun i => place (0 + 1 + i)) r.size ?_ htaken)
    (Nat.lt_irrefl _)
  exact fun i j hlt hj => hdiffer _ _ (by omega) (by omega) (by omega)

/-- The loop ends, whatever number it begins with. -/
theorem exists_search_succ (hbase : r.contains base = true) (last : Nat) :
    ∃ tried, r.Search base (· + 1) last tried ∧ tried.length ≤ r.size :=
  exists_search (last + ·) hbase (fun _ => rfl) fun i j _ hlt _ => by omega

/-- It also ends when the numbers go on from zero behind the last one, unless there are more
fragments than numbers. -/
theorem exists_search_mod {count : Nat} (hbase : r.contains base = true) (hsize : r.size ≤ count)
    (hlast : last < count) :
    ∃ tried, r.Search base (fun number => (number + 1) % count) last tried ∧
      tried.length ≤ r.size := by
  have hstart : (last + 0) % count = last := Nat.mod_eq_of_lt hlast
  rw [← hstart]
  refine exists_search (fun i => (last + i) % count) hbase (fun i => ?_) ?_
  · exact Nat.mod_add_mod (last + i) count 1
  -- two places with the same number are a whole round of the numbers apart
  · intro i j hpos hlt hj heq
    have hzero := Nat.sub_mod_eq_zero_of_mod_eq heq.symm
    rw [Nat.mod_eq_of_lt (by omega)] at hzero
    omega

theorem exists_search_wordSucc (hbase : r.contains base = true) (hsize : r.size ≤ wordCount)
    (hlast : last < wordCount) :
    ∃ tried, r.Search base wordSucc last tried ∧ tried.length ≤ r.size := by
  rw [show wordSucc = fun number => (number + 1) % wordCount from funext wordSucc_eq]
  exact exists_search_mod hbase hsize hlast

/-! ### The numbers of the loop -/

/-- The loop tries the numbers up to the first one that makes a free name. -/
theorem FirstFree.search_range (h : r.FirstFree base last number) :
    r.Search base (· + 1) last (List.range' (last + 1) (number - last)) := by
  obtain ⟨hlt, hfree, htaken⟩ := h
  obtain ⟨rounds, rfl⟩ : ∃ rounds, number = last + 1 + rounds := ⟨number - (last + 1), by omega⟩
  rw [show last + 1 + rounds - last = rounds + 1 by omega, List.range'_succ]
  induction rounds generalizing last with
  | zero => exact .free hfree
  | succ rounds ih =>
    rw [List.range'_succ]
    refine .taken (htaken (last + 1) (by omega) (by omega)) (ih (by omega) ?_ ?_)
    · rw [show last + 1 + 1 + rounds = last + 1 + (rounds + 1) by omega]
      exact hfree
    · exact fun k hk hlt => htaken k (by omega) (by omega)

/-- As long as counting is counting by one for the numbers that the loop tries, it is the same
loop. -/
theorem Search.of_succ (h : r.Search base (· + 1) last tried)
    (hnext : ∀ number, number + 1 ∈ tried → next number = number + 1) :
    r.Search base next last tried := by
  induction h with
  | @free last hfree =>
    have hsucc := hnext last List.mem_cons_self
    rw [← hsucc] at hfree ⊢
    exact .free hfree
  | @taken last tried htaken hrest ih =>
    have hsucc := hnext last List.mem_cons_self
    have hword := ih fun number hn => hnext number (List.mem_cons_of_mem _ hn)
    rw [← hsucc] at htaken hword ⊢
    exact .taken htaken hword

theorem Search.ne_nil (h : r.Search base next last tried) : tried ≠ [] := by
  cases h <;> exact List.cons_ne_nil _ _

/-- The search finds the number that the loop ends with, if it has tries for all its rounds. -/
theorem Search.getLast?_of_length_le (h : r.Search base r.nextNumber last tried) {tries : Nat}
    (hlength : tried.length ≤ tries + 1) :
    tried.getLast? = some (r.freeNumber base tries last) := by
  induction h generalizing tries with
  | free hfree =>
    cases tries with
    | zero => rfl
    | succ tries =>
      rw [freeNumber, hfree]
      rfl
  | @taken last tried htaken hrest ih =>
    cases tries with
    | zero =>
      have hnone : tried.length ≤ 0 := Nat.le_of_succ_le_succ hlength
      exact absurd (List.length_eq_zero_iff.1 (Nat.le_zero.1 hnone)) hrest.ne_nil
    | succ tries =>
      rw [freeNumber, if_pos htaken, List.getLast?_cons_of_ne_nil hrest.ne_nil]
      exact ih (Nat.le_of_succ_le_succ hlength)

/-- It always has: whatever number the loop begins with, it ends within as many rounds. -/
theorem Search.getLast?_eq (hbase : r.contains base = true) (hlast : last < r.words)
    (h : r.Search base r.nextNumber last tried) :
    tried.getLast? = some (r.freeNumber base (r.size - 1) last) := by
  have hends := Search.ends_of_exists
    (exists_search_mod hbase (Nat.le_of_lt r.size_lt_words) hlast)
  have hlength : tried.length ≤ r.size := hends.2 tried h
  exact h.getLast?_of_length_le (by omega)

/-! ### Remembered numbers -/

/-- A remembered number is less than the number of fragments. -/
theorem Backed.lt_size (h : r.Backed) (hnumber : r.counters[base]? = some number) :
    number < r.size := by
  obtain ⟨-, hbase, htaken⟩ := h base number hnumber
  exact lt_size_of_taken hbase (· + 1) number (by omega) fun i hi => htaken _ (by omega) (by omega)

/-- The loop that counts a number up until it makes a free name ends after no more rounds than there
are fragments, whatever number it begins with, and also where numbers are words and the last word is
followed by zero.  In a registry that actions lead to, every remembered number is less than the
number of fragments, and the loop that begins with it tries no greater number than that one; it
gives the name that is found and the number that is remembered then.  So it never passes the last
word as long as the number of fragments is a word itself.  And then, in every registry and from every
word, the search that is given tries finds the number that the loop in words ends with. -/
theorem search_ends_within_size (r : Registry) :
    (∀ base last, r.contains base = true →
        (∃ tried, r.Search base (· + 1) last tried) ∧
          ∀ tried, r.Search base (· + 1) last tried → tried.length ≤ r.size) ∧
      (r.size ≤ wordCount → ∀ base last, r.contains base = true → last < wordCount →
        (∃ tried, r.Search base wordSucc last tried) ∧
          ∀ tried, r.Search base wordSucc last tried → tried.length ≤ r.size) ∧
      (r.Reachable →
        (∀ (base : String) number, r.counters[base]? = some number → number < r.size) ∧
          ∀ base tried, r.contains base = true → r.Search base (· + 1) (r.counter base) tried →
            (∀ n ∈ tried, n ≤ r.size) ∧
              (∃ number, tried.getLast? = some number ∧
                r.freeName base = (numbered base number, r.setCounter base number)) ∧
              (r.size < wordCount → r.Search base wordSucc (r.counter base) tried)) ∧
      (r.size < wordCount → ∀ base last tried, r.contains base = true → last < wordCount →
        r.Search base wordSucc last tried →
          tried.getLast? = some (r.freeNumber base (r.size - 1) last)) := by
  refine ⟨fun base last hbase => ?_, fun hsize base last hbase hlast => ?_, fun hr => ?_,
    fun hsize base last tried hbase hlast hsearch => ?_⟩
  · exact Search.ends_of_exists (exists_search_succ hbase last)
  · exact Search.ends_of_exists (exists_search_wordSucc hbase hsize hlast)
  · refine ⟨fun base number hnumber => hr.backed.lt_size hnumber, ?_⟩
    intro base tried hbase hsearch
    obtain ⟨number, hfirst, hfound⟩ := (hr.backed.numberLeft base).exists_freeName hbase
    have hle := hr.backed.firstFree_le_size hbase hfirst
    have hlt := hfirst.lt
    have htried := hsearch.unique hfirst.search_range
    have hsmall : ∀ n ∈ tried, n ≤ r.size := by
      intro n hn
      rw [htried, List.mem_range'_1] at hn
      omega
    refine ⟨hsmall, ⟨number, ?_, hfound⟩, fun hsize => ?_⟩
    · rw [htried, List.getLast?_range', if_neg (by omega), Option.some_inj]
      omega
    · refine hsearch.of_succ fun n hn => wordSucc_of_lt ?_
      exact Nat.lt_of_le_of_lt (hsmall _ hn) hsize
  · rw [← nextNumber_eq_wordSucc hsize] at hsearch
    exact hsearch.getLast?_eq hbase (Nat.lt_of_lt_of_le hlast (Nat.le_max_left _ _))

/-- The second number is taken as well, so the third is found in two rounds; and behind the last
word comes a number that is free at once. -/
theorem search_ends_within_size_crowded :
    crowded.Reachable ∧ crowded.contains "FragmentUser" = true ∧ crowded.size = 3 ∧
      crowded.counters["FragmentUser"]? = some 1 ∧ 1 < crowded.size ∧
      (∃ tried, crowded.Search "FragmentUser" (· + 1) 0 tried ∧ tried.length ≤ 3) ∧
      (∃ tried, crowded.Search "FragmentUser" wordSucc (wordCount - 1) tried ∧ tried.length ≤ 3) ∧
      crowded.Search "FragmentUser" (· + 1) (crowded.counter "FragmentUser") [2, 3] ∧
      crowded.freeName "FragmentUser" =
        (numbered "FragmentUser" 3, crowded.setCounter "FragmentUser" 3) ∧
      crowded.Search "FragmentUser" wordSucc (crowded.counter "FragmentUser") [2, 3] ∧
      crowded.freeNumber "FragmentUser" (crowded.size - 1) (wordCount - 1) = 0 := by
  obtain ⟨hends, hwords, hreached, hfound⟩ := search_ends_within_size crowded
  obtain ⟨hless, hloop⟩ := hreached reachable_crowded
  have hbase : crowded.contains "FragmentUser" = true := contains_crowded.2 (by decide)
  have hsize : crowded.size = 3 := by decide
  have hcounter : crowded.counters["FragmentUser"]? = some 1 := by decide
  have hword : crowded.size < wordCount := by
    rw [hsize]
    decide
  have hsearch : crowded.Search "FragmentUser" (· + 1) (crowded.counter "FragmentUser") [2, 3] :=
    .taken (contains_crowded.2 (by decide)) (.free (by decide))
  have hbehind : crowded.Search "FragmentUser" wordSucc (wordCount - 1) [0] :=
    .free (by decide)
  obtain ⟨⟨tried, htried⟩, hlength⟩ := hends "FragmentUser" 0 hbase
  obtain ⟨⟨tried', htried'⟩, hlength'⟩ :=
    hwords (Nat.le_of_lt hword) "FragmentUser" (wordCount - 1) hbase (by decide)
  obtain ⟨-, ⟨number, hnumber, hfree⟩, hwordly⟩ := hloop _ _ hbase hsearch
  obtain rfl : 3 = number := Option.some.inj hnumber
  have hzero := hfound hword _ _ _ hbase (by decide) hbehind
  exact ⟨reachable_crowded, hbase, hsize, hcounter, hless _ _ hcounter,
    ⟨tried, htried, hsize ▸ hlength tried htried⟩,
    ⟨tried', htried', hsize ▸ hlength' tried' htried'⟩, hsearch, hfree, hwordly hword,
    (Option.some.inj hzero).symm⟩

end Registry

end FragmentAssembly
