/-
FragmentAssembly/Spread/Basic.lean

What a spread is.  A definition names the fragments it needs by writing three dots
and, directly after them, a name: `...UserFields`.  The name is the longest run of
name characters, and the run `on` is left out, because `...on User` opens an inline
fragment and names nothing.

The definitions here look at every place of a text on its own, so that a run of dots
of any length and names that touch each other need no rule of their own: a spread
stands wherever three dots are followed by a name character.  `Spread.ofText`, in
`FragmentAssembly.Spread.Search`, finds the same names without looking at every place.
-/
import FragmentAssembly.Text.Name

namespace FragmentAssembly.Spread

open Text

/-- What stands in front of the name of a spread. -/
def dotChars : List Char := ['.', '.', '.']

/-- The word that turns three dots into an inline fragment. -/
def inlineWord : List Char := ['o', 'n']

/-- The run of name characters directly after three dots, when the characters begin so
and the run is not empty. -/
def run? : List Char → Option (List Char)
  | '.' :: '.' :: '.' :: rest =>
    match rest.takeWhile isNameChar with
    | [] => none
    | run => some run
  | _ => none

/-- The name of the spread that stands at the beginning of the characters. -/
def here? (cs : List Char) : Option (List Char) :=
  (run? cs).filter (· != inlineWord)

/-- The names of the spreads at every place of the characters, in order. -/
def all : List Char → List (List Char)
  | [] => []
  | c :: cs => (here? (c :: cs)).toList ++ all cs

/-! ### How `all` reads on -/

@[simp] theorem all_nil : all [] = [] := rfl

theorem all_cons (c : Char) (cs : List Char) :
    all (c :: cs) = (here? (c :: cs)).toList ++ all cs := rfl

/-- A place that is no dot holds no spread. -/
theorem here?_eq_none_of_ne {c : Char} (cs : List Char) (h : c ≠ '.') : here? (c :: cs) = none := by
  have : run? (c :: cs) = none := by
    unfold run?
    split
    · rename_i heq
      cases heq
      exact absurd rfl h
    · rfl
  rw [here?, this]
  rfl

@[simp] theorem all_cons_of_ne {c : Char} (cs : List Char) (h : c ≠ '.') : all (c :: cs) = all cs := by
  rw [all_cons, here?_eq_none_of_ne cs h]
  rfl

/-- A text without dots holds no spread, so it can be passed over. -/
theorem all_append_of_no_dot (ds cs : List Char) (h : ∀ c ∈ ds, c ≠ '.') :
    all (ds ++ cs) = all cs := by
  induction ds with
  | nil => rfl
  | cons d ds ih =>
    rw [List.cons_append, all_cons_of_ne _ (h d List.mem_cons_self),
      ih fun c hc => h c (List.mem_cons_of_mem _ hc)]

/-- The dot is not a name character, so a run can be passed over once it is read. -/
theorem ne_dot_of_isNameChar {c : Char} (h : isNameChar c = true) : c ≠ '.' := by
  rintro rfl
  exact absurd h (by decide)

end FragmentAssembly.Spread
