/-
FragmentAssembly/Measure.lean

Counting what is left.  Several walks end because each of their steps uses up one member
of a fixed list.  What is left is the part of the list that passes a test; a stricter
test leaves no more (`length_filter_le_of_imp`), and one that a member of the list passes
no longer leaves less (`length_filter_lt_of_imp`).
-/

namespace FragmentAssembly

variable {α : Type} {l : List α} {p q : α → Bool}

theorem length_filter_le_of_imp (h : ∀ a ∈ l, q a = true → p a = true) :
    (l.filter q).length ≤ (l.filter p).length := by
  rw [← List.countP_eq_length_filter, ← List.countP_eq_length_filter]
  exact List.countP_mono_left h

theorem length_filter_lt_of_imp {a : α} (ha : a ∈ l) (hp : p a = true) (hq : q a = false)
    (h : ∀ a ∈ l, q a = true → p a = true) : (l.filter q).length < (l.filter p).length := by
  obtain ⟨s, t, rfl⟩ := List.append_of_mem ha
  have hs := length_filter_le_of_imp fun b hb => h b (List.mem_append_left _ hb)
  have ht := length_filter_le_of_imp fun b hb =>
    h b (List.mem_append_right _ (List.mem_cons_of_mem _ hb))
  rw [List.filter_append, List.filter_append, List.length_append, List.length_append,
    List.filter_cons_of_pos hp, List.filter_cons_of_neg (by rw [hq]; exact Bool.false_ne_true),
    List.length_cons]
  omega

end FragmentAssembly
