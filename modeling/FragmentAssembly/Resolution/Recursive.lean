/-
FragmentAssembly/Resolution/Recursive.lean

The walk told as a recursion.  `Registry.collect` takes the names of one definition from
left to right: it passes over the name of a fragment that was met before, fails on a name
that is not registered, and otherwise meets the fragment, then everything that the fragment
spreads, and then goes on with the next name.  It keeps no stack of its own; the order
in which `Resolution.State.walk` takes names is the order of these calls.

The recursion ends because a fragment is met under the name that was taken, so fewer
registered names are left that were not met; and nothing that was met is forgotten: the
result carries that bound along.
-/
import FragmentAssembly.Resolution.Walk

namespace FragmentAssembly

namespace Registry

/-- How many registered names are not those of fragments that were met. -/
def unmet (r : Registry) (met : List Fragment) : Nat :=
  (r.fragments.keys.filter (· ∉ met.map Fragment.name)).length

/-- Meeting a registered fragment leaves fewer names that were not met. -/
theorem unmet_append_lt {r : Registry} {met : List Fragment} {name : String} {f : Fragment}
    (hnew : name ∉ met.map Fragment.name) (hreg : r.lookup? name = some f) :
    r.unmet (met ++ [f]) < r.unmet met := by
  obtain rfl := name_of_lookup? hreg
  refine length_filter_lt_of_imp (mem_keys_of_lookup? hreg) (by simpa using hnew) (by simp)
    fun n _ hn => ?_
  simp only [decide_eq_true_eq, List.map_append, List.mem_append, not_or] at hn ⊢
  exact hn.1

/-- Collects what the names need, beginning with the fragments that were met before.  The names
stand in the definition of `owner`, or in the operation itself. -/
def collect (r : Registry) (owner : Option String) (names : List String) (met : List Fragment) :
    Except UndefinedReference { all : List Fragment // r.unmet all ≤ r.unmet met } :=
  match names with
  | [] => .ok ⟨met, Nat.le_refl _⟩
  | name :: names =>
    if hseen : name ∈ met.map Fragment.name then r.collect owner names met
    else
      match hreg : r.lookup? name with
      | none => .error ⟨owner, name⟩
      | some f =>
        have hlt := unmet_append_lt hseen hreg
        match r.collect (some f.name) f.spreads (met ++ [f]) with
        | .error e => .error e
        | .ok ⟨inner, hinner⟩ =>
          match r.collect owner names inner with
          | .error e => .error e
          | .ok ⟨all, hall⟩ =>
            .ok ⟨all, Nat.le_trans hall (Nat.le_trans hinner (Nat.le_of_lt hlt))⟩
termination_by (r.unmet met, names.length)
decreasing_by
  · exact .right _ (Nat.lt_succ_self _)
  · exact .left _ _ hlt
  · exact .left _ _ (Nat.lt_of_le_of_lt hinner hlt)

/-- The fragments that a list of names needs, as the recursion collects them. -/
def collectAll (r : Registry) (names : List String) : Except UndefinedReference (List Fragment) :=
  (r.collect none names []).map Subtype.val

end Registry

end FragmentAssembly
