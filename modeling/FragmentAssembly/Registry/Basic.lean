/-
FragmentAssembly/Registry/Basic.lean

The registry: the fragments that operations are assembled from, by name, and for every
derived name that was once taken the number that was last put behind it.

Every fragment stands under its own name.  A registry carries the proof of that
(`Registry.wellNamed`), so no other one can be made; what walks over fragments ends
because of it.  `Registry.Tracked` says what else holds of every registry that is made by
the operations, and the operations keep it.

The fragments and the numbers are extensional maps, so two registries are equal exactly
when every name gives the same fragment and the same number (`Registry.ext`).
-/
import FragmentAssembly.Fragment
import Std.Data.ExtTreeMap

namespace FragmentAssembly

/-- Fragments under names. -/
abbrev FragmentMap := Std.ExtTreeMap String Fragment

namespace FragmentMap

/-- Every fragment stands under its own name. -/
def WellNamed (m : FragmentMap) : Prop :=
  ∀ (name : String) (f : Fragment), m[name]? = some f → f.name = name

theorem wellNamed_empty : WellNamed ∅ := by
  intro name f h
  simp at h

/-- Putting a fragment under its own name keeps every fragment under its own. -/
theorem WellNamed.insert {m : FragmentMap} (h : m.WellNamed) (f : Fragment) :
    WellNamed (m.insert f.name f) := by
  intro name g hg
  rw [Std.ExtTreeMap.getElem?_insert] at hg
  split at hg
  · rename_i heq
    cases hg
    simpa using heq
  · exact h name g hg

end FragmentMap

/-- Fragments, each under its own name, and the numbers last used behind taken names. -/
@[ext] structure Registry where
  fragments : FragmentMap
  counters : Std.ExtTreeMap String Nat
  wellNamed : fragments.WellNamed
deriving DecidableEq

namespace Registry

/-- The registry without fragments and without numbers. -/
def empty : Registry := ⟨∅, ∅, FragmentMap.wellNamed_empty⟩

instance : EmptyCollection Registry := ⟨empty⟩

/-- The fragment registered under a name. -/
def lookup? (r : Registry) (name : String) : Option Fragment :=
  r.fragments[name]?

/-- Whether a name is taken. -/
def contains (r : Registry) (name : String) : Bool :=
  r.fragments.contains name

/-- The number of fragments. -/
def size (r : Registry) : Nat :=
  r.fragments.size

/-- The names and their fragments, in the order of the names. -/
def toList (r : Registry) : List (String × Fragment) :=
  r.fragments.toList

/-- Puts a fragment under its own name, in place of an earlier one of that name. -/
def register (r : Registry) (f : Fragment) : Registry :=
  { r with fragments := r.fragments.insert f.name f, wellNamed := r.wellNamed.insert f }

/-- The last number used behind a taken name, zero if there is none. -/
def counter (r : Registry) (base : String) : Nat :=
  r.counters[base]?.getD 0

/-- Remembers the number that was used behind a taken name. -/
def setCounter (r : Registry) (base : String) (number : Nat) : Registry :=
  { r with counters := r.counters.insert base number }

/-! ### What the operations show -/

@[simp] theorem lookup?_empty (name : String) : empty.lookup? name = none := by
  simp [lookup?, empty]

@[simp] theorem size_empty : empty.size = 0 := by
  simp [size, empty]

theorem lookup?_register (r : Registry) (f : Fragment) (name : String) :
    (r.register f).lookup? name = if f.name = name then some f else r.lookup? name := by
  simp [lookup?, register, Std.ExtTreeMap.getElem?_insert]

@[simp] theorem lookup?_register_self (r : Registry) (f : Fragment) :
    (r.register f).lookup? f.name = some f := by
  simp [lookup?_register]

theorem contains_eq_isSome (r : Registry) (name : String) :
    r.contains name = (r.lookup? name).isSome := by
  simp [contains, lookup?]

theorem contains_eq_false_iff {r : Registry} {name : String} :
    r.contains name = false ↔ r.lookup? name = none := by
  rw [contains_eq_isSome, Option.isSome_eq_false_iff, Option.isNone_iff_eq_none]

/-- A name under which something is registered is one of the names. -/
theorem mem_keys_of_lookup? {r : Registry} {name : String} {f : Fragment}
    (h : r.lookup? name = some f) : name ∈ r.fragments.keys := by
  rw [Std.ExtTreeMap.mem_keys, ← Std.ExtTreeMap.isSome_getElem?_iff_mem]
  simp only [lookup?] at h
  rw [h]
  rfl

theorem size_register (r : Registry) (f : Fragment) :
    (r.register f).size = if r.contains f.name then r.size else r.size + 1 := by
  simp [size, register, contains, Std.ExtTreeMap.size_insert]

@[simp] theorem fragments_register (r : Registry) (f : Fragment) :
    (r.register f).fragments = r.fragments.insert f.name f := rfl

@[simp] theorem counters_register (r : Registry) (f : Fragment) :
    (r.register f).counters = r.counters := rfl

@[simp] theorem fragments_setCounter (r : Registry) (base : String) (number : Nat) :
    (r.setCounter base number).fragments = r.fragments := rfl

@[simp] theorem lookup?_setCounter (r : Registry) (base : String) (number : Nat) (name : String) :
    (r.setCounter base number).lookup? name = r.lookup? name := rfl

/-- Two registries with the same fragments under every name have the same fragments. -/
theorem fragments_ext {r s : Registry} (h : ∀ name, r.lookup? name = s.lookup? name) :
    r.fragments = s.fragments :=
  Std.ExtTreeMap.ext_getElem? h

/-- What stands under a name has that name. -/
theorem name_of_lookup? {r : Registry} {name : String} {f : Fragment}
    (h : r.lookup? name = some f) : f.name = name :=
  r.wellNamed name f h

/-! ### What holds of every registry made by the operations -/

/-- Every fragment's spreads are those that stand in its definition. -/
def Tracked (r : Registry) : Prop :=
  ∀ name f, r.lookup? name = some f → f.Tracked

theorem tracked_empty : Tracked empty := by
  intro name f h
  simp at h

theorem Tracked.register {r : Registry} (h : r.Tracked) {f : Fragment} (hf : f.Tracked) :
    (r.register f).Tracked := by
  intro name g hg
  rw [lookup?_register] at hg
  split at hg
  · cases hg
    exact hf
  · exact h name g hg

end Registry

end FragmentAssembly
