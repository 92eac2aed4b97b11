/-
FragmentAssembly/Registry/Naming.lean

Derived names.  A fragment that is given a type but no name is called `Fragment` and
the type, as in `FragmentUser`.  If that name is taken, a number is put behind it, and
the registry remembers the number, so that the next search for the same base goes on
from there instead of from the beginning.

The search tries the numbers one after another.  It tries at most as many as there are
fragments: the base is one of the taken names, so of so many different names behind it
at least one is free.

Numbers are machine words, and behind the last word comes zero.  A search finds the
first number behind the remembered one that makes a free name, if it finds one before
the last word is passed (`Registry.freeNumber_eq`).
-/
import FragmentAssembly.Registry.Basic

namespace FragmentAssembly

/-- The name that is derived from a type. -/
def derivedName (typeName : String) : String :=
  "Fragment" ++ typeName

/-- A base with a number behind it. -/
def numbered (base : String) (number : Nat) : String :=
  base ++ toString number

/-! ### Words -/

/-- How many machine words there are. -/
def wordCount : Nat := UInt64.size

/-- The word after a word. -/
def wordSucc (number : Nat) : Nat :=
  (UInt64.ofNat number + 1).toNat

theorem wordSucc_eq (number : Nat) : wordSucc number = (number + 1) % wordCount := by
  rw [wordSucc, UInt64.toNat_add, UInt64.toNat_ofNat']
  exact Nat.mod_add_mod number wordCount 1

/-- Nothing is lost before the last word. -/
theorem wordSucc_of_lt {number : Nat} (h : number + 1 < wordCount) :
    wordSucc number = number + 1 := by
  rw [wordSucc_eq, Nat.mod_eq_of_lt h]

namespace Registry

/-- How many numbers there are to count with: the machine words.  A registry with more
fragments than words would need a machine with wider ones, on which they can be counted;
no machine with these words holds it. -/
def words (r : Registry) : Nat :=
  max wordCount (r.size + 1)

/-- The number after a number; behind the last one comes zero. -/
def nextNumber (r : Registry) (number : Nat) : Nat :=
  (number + 1) % r.words

theorem size_lt_words (r : Registry) : r.size < r.words :=
  Nat.le_max_right wordCount (r.size + 1)

/-- In a registry whose size is a word, numbers are counted up as words are. -/
theorem nextNumber_eq_wordSucc {r : Registry} (h : r.size < wordCount) :
    r.nextNumber = wordSucc := by
  funext number
  rw [nextNumber, words, Nat.max_eq_left h, wordSucc_eq]

theorem nextNumber_of_lt {r : Registry} {number : Nat} (h : number + 1 < r.words) :
    r.nextNumber number = number + 1 :=
  Nat.mod_eq_of_lt h

/-! ### The search -/

/-- The first number after `last`, among the next `tries + 1`, that makes a free name;
the last of them is not tried but taken as it is. -/
def freeNumber (r : Registry) (base : String) : (tries last : Nat) → Nat
  | 0, last => r.nextNumber last
  | tries + 1, last =>
    if r.contains (numbered base (r.nextNumber last)) then
      freeNumber r base tries (r.nextNumber last)
    else r.nextNumber last

/-- A free name for a base: the base itself, or the base with the first number that makes
it free, counted from the one used last.  The registry remembers that number. -/
def freeName (r : Registry) (base : String) : String × Registry :=
  if r.contains base then
    let number := r.freeNumber base (r.size - 1) (r.counter base)
    (numbered base number, r.setCounter base number)
  else (base, r)

/-- The first number behind another one that makes a free name. -/
structure FirstFree (r : Registry) (base : String) (last number : Nat) : Prop where
  lt : last < number
  free : r.contains (numbered base number) = false
  taken : ∀ k, last < k → k < number → r.contains (numbered base k) = true

/-- The search finds the first number that makes a free name, if the tries reach it and it
comes before the last word is passed. -/
theorem freeNumber_eq {r : Registry} {base : String} {tries last number : Nat}
    (h : r.FirstFree base last number) (hword : number < r.words)
    (htries : number ≤ last + tries + 1) : r.freeNumber base tries last = number := by
  obtain ⟨hlt, hfree, htaken⟩ := h
  have hnext : r.nextNumber last = last + 1 := nextNumber_of_lt (by omega)
  fun_induction freeNumber r base tries last with
  | case1 last =>
    rw [hnext]
    omega
  | case2 tries last hin ih =>
    rw [hnext] at hin ih ⊢
    -- the number that was tried is taken, so the free one comes later
    have hne : number ≠ last + 1 := by
      rintro rfl
      rw [hin] at hfree
      cases hfree
    exact ih (by omega) (by omega) (fun k hk => htaken k (by omega))
      (nextNumber_of_lt (by omega))
  | case3 tries last hout =>
    rw [hnext] at hout ⊢
    refine (Nat.lt_or_eq_of_le hlt).resolve_left fun hmore => hout ?_
    exact htaken (last + 1) (Nat.lt_succ_self last) hmore

/-- Looking for a free name touches no fragment. -/
@[simp] theorem fragments_freeName (r : Registry) (base : String) :
    (r.freeName base).2.fragments = r.fragments := by
  unfold freeName
  split <;> rfl

theorem freeName_of_free {r : Registry} {base : String} (h : r.contains base = false) :
    r.freeName base = (base, r) := by
  simp [freeName, h]

theorem freeName_of_taken {r : Registry} {base : String} (h : r.contains base = true) :
    r.freeName base =
      (numbered base (r.freeNumber base (r.size - 1) (r.counter base)),
        r.setCounter base (r.freeNumber base (r.size - 1) (r.counter base))) := by
  rw [freeName, if_pos h]

/-- The name that is found for a base is the base, with a number or without. -/
theorem freeName_eq_or_numbered (r : Registry) (base : String) :
    (r.freeName base).1 = base ∨ ∃ number, (r.freeName base).1 = numbered base number := by
  cases hbase : r.contains base with
  | false =>
    rw [freeName_of_free hbase]
    exact .inl rfl
  | true =>
    rw [freeName_of_taken hbase]
    exact .inr ⟨_, rfl⟩

end Registry

end FragmentAssembly
