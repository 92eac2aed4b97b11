/-
FragmentAssembly/Fragment.lean

Fragments.  A fragment is the text of its definition under a name, together with the
names of the fragments that the text spreads.  In an operation or in another fragment
it is written as its spread, three dots and the name.
-/
import FragmentAssembly.Spread.Search

namespace FragmentAssembly

/-- A named fragment definition. -/
structure Fragment where
  name : String
  definition : String
  spreads : List String
deriving DecidableEq, Repr

namespace Fragment

/-- The fragment of a name and a definition, with the spreads that stand in the
definition. -/
def define (name definition : String) : Fragment :=
  ⟨name, definition, Spread.ofText definition⟩

/-- How the fragment is written where it is used. -/
def display (f : Fragment) : String :=
  "..." ++ f.name

/-- The spreads of a fragment are those that stand in its definition. -/
def Tracked (f : Fragment) : Prop :=
  f.spreads = Spread.ofText f.definition

theorem tracked_define (name definition : String) : (define name definition).Tracked := rfl

/-- A tracked fragment is determined by its name and its definition. -/
theorem Tracked.eq_define {f : Fragment} (h : f.Tracked) : f = define f.name f.definition := by
  rw [define, ← h]

end Fragment

end FragmentAssembly
