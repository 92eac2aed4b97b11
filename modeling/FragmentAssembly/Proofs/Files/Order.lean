/-
FragmentAssembly/Proofs/Files/Order.lean

The order of paths.  It is total and transitive, and its ties are just the paths with the same
components (`compare_eq_eq_iff`): nothing else of the text counts.  So a list that increases
strictly holds every path once, however it may be spelled, and two such lists that hold the same
paths agree at every position in everything but the spelling (`map_components_eq`).
-/
import FragmentAssembly.Files.Path
import Mathlib.Data.List.Nodup

namespace FragmentAssembly.Path

/-! ### Components -/

namespace Component

theorem key_injective {a b : Component} (h : a.key = b.key) : a = b := by
  cases a <;> cases b <;> simp_all [key]

instance : Std.TransCmp Component.compare :=
  inferInstanceAs (Std.TransCmp
    (compareLex (compareOn fun c : Component => c.key.1) (compareOn fun c : Component => c.key.2)))

instance : Std.LawfulEqCmp Component.compare where
  eq_of_compare {a b} h := by
    rw [Component.compare, Ordering.then_eq_eq] at h
    refine key_injective (Prod.ext ?_ ?_)
    · exact Std.LawfulEqOrd.eq_of_compare h.1
    · exact Std.LawfulEqOrd.eq_of_compare h.2

end Component

/-! ### Paths -/

instance : Std.TransCmp Path.compare where
  eq_swap := by
    intro a b
    exact @Std.OrientedCmp.eq_swap _ (List.compareLex Component.compare) _ (components a) _
  isLE_trans := by
    intro a b c hab hbc
    rw [Path.compare] at *
    exact Std.TransCmp.isLE_trans hab hbc

variable {a b c : String}

/-- Paths are tied just when they have the same components. -/
theorem compare_eq_eq_iff : Path.compare a b = .eq ↔ Same a b := by
  rw [Path.compare, Std.LawfulEqCmp.compare_eq_iff_eq]
  rfl

/-- That a path comes strictly before another one. -/
def Before (a b : String) : Prop :=
  Path.compare a b = .lt

instance (a b : String) : Decidable (Before a b) :=
  inferInstanceAs (Decidable (Path.compare a b = .lt))

theorem le_iff : le a b = true ↔ Before a b ∨ Same a b := by
  rw [le, Ordering.isLE_iff_eq_lt_or_eq_eq, compare_eq_eq_iff]
  rfl

theorem le_trans (a b c : String) (hab : le a b = true) (hbc : le b c = true) : le a c = true :=
  Std.TransCmp.isLE_trans hab hbc

theorem before_of_not_le (h : ¬le a b = true) : Before b a :=
  Std.OrientedCmp.lt_of_not_isLE h

theorem le_total (a b : String) : (le a b || le b a) = true := by
  rw [Bool.or_eq_true]
  by_cases h : le a b = true
  · exact .inl h
  · exact .inr (le_iff.2 (.inl (before_of_not_le h)))

theorem Before.not_same (h : Before a b) : ¬Same a b := by
  rw [← compare_eq_eq_iff, show Path.compare a b = .lt from h]
  exact Ordering.noConfusion

/-! ### Increasing lists -/

theorem nodup_map_components {files : List String} (h : files.Pairwise Before) :
    (files.map components).Nodup :=
  List.pairwise_map.2 (h.imp Before.not_same)

/-- Increasing lists that hold the same paths agree in all components. -/
theorem map_components_eq {files others : List String} (h : files.Pairwise Before)
    (h' : others.Pairwise Before)
    (hsame : ∀ x, x ∈ files.map components ↔ x ∈ others.map components) :
    files.map components = others.map components := by
  -- neither list holds a path twice, so they are the same up to their order, which is fixed
  have hperm := (List.perm_ext_iff_of_nodup (nodup_map_components h) (nodup_map_components h')).2
    hsame
  have hasymm : ∀ x y, x ∈ files.map components → y ∈ others.map components →
      List.compareLex Component.compare x y = .lt → List.compareLex Component.compare y x = .lt →
        x = y :=
    fun x y _ _ hxy hyx => absurd hyx (Std.OrientedCmp.not_lt_of_lt hxy)
  exact hperm.eq_of_pairwise hasymm (List.pairwise_map.2 h) (List.pairwise_map.2 h')

end FragmentAssembly.Path
