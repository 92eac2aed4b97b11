/-
FragmentAssembly/Proofs/Header/Appending.lean

Headers in texts that go on.  A header that stands in a text stands in every text that begins with
it, at the same position, and the first one stays the first (`FirstAt.append`).

The second part is not plain, since a place with no header may become one when the text goes on:
it may have been cut off at the end of the text, in its keyword, in its blanks or in its name.  But
behind the keyword of such a place there are only blanks and then only name characters, so no
header stands later in the text (`first?_of_cut`): a blank would have to follow its name.
-/
import FragmentAssembly.Proofs.Header.Places

namespace FragmentAssembly.Header

open Text

variable {cs more blanks name other after : List Char} {pos : Nat}

/-! ### One header -/

/-- What follows a header may go on behind the blank that ends its name. -/
theorem ReadsAs.append (h : ReadsAs cs blanks name after) (more : List Char) :
    ReadsAs (cs ++ more) blanks name (after ++ more) := by
  obtain ⟨b, rest, rfl, hb⟩ := h.exists_blank
  have hlonger := readsAs h.blanks h.starts (fun c => h.isNameChar) hb (rest ++ more)
  rw [h.eq_append]
  simpa only [List.append_assoc, List.cons_append] using hlonger

/-! ### Headers that are cut off -/

/-- Among the blanks and the name of a header, only blanks stand before a blank. -/
theorem ReadsAs.pairwise (h : ReadsAs cs blanks name after) :
    (blanks ++ name).Pairwise fun c d => isAsciiBlank d = true → isAsciiBlank c = true := by
  refine List.pairwise_append.2 ⟨?_, ?_, fun c hc d _ _ => h.blanks c hc⟩
  · exact List.pairwise_of_forall_mem_list fun c hc d _ _ => h.blanks c hc
  · refine List.pairwise_of_forall_mem_list fun c _ d hd hblank => ?_
    rw [isAsciiBlank_of_isNameChar (h.isNameChar hd)] at hblank
    cases hblank

/-- A header has a blank behind its name, and both stand behind its keyword. -/
theorem StandsAt.not_pairwise (h : StandsAt cs pos name) :
    ¬ (cs.drop keyword.length).Pairwise fun c d => isAsciiBlank d = true → isAsciiBlank c = true := by
  obtain ⟨blanks, after, h⟩ := h
  obtain ⟨b, rest, rfl, hb⟩ := h.exists_blank
  obtain ⟨c, run, rfl, -⟩ := h.exists_start
  intro hpairwise
  have hpart : [c, b].Sublist (cs.drop keyword.length) := by
    have hbehind : cs.drop (pos + keyword.length) = blanks ++ (c :: run ++ b :: rest) := by
      rw [← List.drop_drop, h.eq_append, List.drop_left]
    have hsub : [c, b].Sublist (cs.drop (pos + keyword.length)) := by
      rw [hbehind]
      refine List.sublist_append_of_sublist_right ?_
      show ([c] ++ [b]).Sublist (c :: run ++ b :: rest)
      exact (List.singleton_sublist.2 List.mem_cons_self).append
        (List.singleton_sublist.2 List.mem_cons_self)
    rw [Nat.add_comm, ← List.drop_drop] at hsub
    exact hsub.trans (List.drop_sublist _ _)
  have hblank := List.pairwise_pair.1 (hpairwise.sublist hpart) hb
  rw [isAsciiBlank_of_isNameChar (h.isNameChar List.mem_cons_self)] at hblank
  cases hblank

/-- Where a header is cut off at the end of the characters, no header stands in them. -/
theorem first?_of_cut (h : ReadsAs (cs ++ more) blanks name after) (hcs : here? cs = none) :
    first? cs = none := by
  obtain ⟨b, rest, rfl, hb⟩ := h.exists_blank
  have hcut : cs <+: keyword ++ (blanks ++ name) := by
    have heq : cs ++ more = (keyword ++ (blanks ++ name)) ++ b :: rest := by
      rw [h.eq_append]
      simp only [List.append_assoc]
    rcases List.append_eq_append_iff.1 heq with ⟨missing, hcs', -⟩ | ⟨extra, hcs', hafter⟩
    · exact ⟨missing, hcs'.symm⟩
    · rcases extra with - | ⟨d, extra⟩
      · rw [List.append_nil] at hcs'
        exact ⟨[], by rw [List.append_nil, hcs']⟩
      · -- the blank behind the name is there, so nothing is cut off
        obtain ⟨rfl, -⟩ := List.cons.inj hafter
        have hreads := readsAs h.blanks h.starts (fun c => h.isNameChar) hb extra
        have hwhole : cs = keyword ++ (blanks ++ (name ++ b :: extra)) := by
          rw [hcs']
          simp only [List.append_assoc]
        rw [hwhole, here?_eq_some_iff.2 ⟨_, _, hreads⟩] at hcs
        cases hcs
  have hbehind : (cs.drop keyword.length).Sublist (blanks ++ name) := by
    have hsub := hcut.sublist.drop keyword.length
    rwa [List.drop_left] at hsub
  exact first?_eq_none_iff.2 fun pos other hother =>
    hother.not_pairwise (h.pairwise.sublist hbehind)

/-! ### The first header -/

theorem StandsAt.le_length (h : StandsAt cs pos name) : pos ≤ cs.length := by
  obtain ⟨blanks, after, h⟩ := h
  apply Nat.le_of_not_le
  intro hle
  have heq := h.eq_append
  rw [List.drop_of_length_le hle] at heq
  cases heq

theorem StandsAt.append (h : StandsAt cs pos name) (more : List Char) :
    StandsAt (cs ++ more) pos name := by
  have hle := h.le_length
  obtain ⟨blanks, after, h⟩ := h
  refine ⟨blanks, after ++ more, ?_⟩
  rw [List.drop_append_of_le_length hle]
  exact h.append more

/-- The first header stays at its position, and the first, when the text goes on. -/
theorem FirstAt.append (h : FirstAt cs pos name) (more : List Char) :
    FirstAt (cs ++ more) pos name := by
  refine ⟨h.stands.append more, ?_⟩
  rintro earlier hlt other ⟨blanks, after, hother⟩
  have hle : earlier ≤ cs.length := Nat.le_trans (Nat.le_of_lt hlt) h.stands.le_length
  rw [List.drop_append_of_le_length hle] at hother
  -- a header that is there only now was cut off, and then none stands behind it
  have hnone := first?_of_cut hother (here?_drop_eq_none_iff.2 (h.none_before earlier hlt))
  have hbehind : StandsAt (cs.drop earlier) (pos - earlier) name := by
    rw [StandsAt, List.drop_drop, Nat.add_sub_cancel' (Nat.le_of_lt hlt)]
    exact h.stands
  exact first?_eq_none_iff.1 hnone _ _ hbehind

theorem first?_append (h : first? cs = some name) (more : List Char) :
    first? (cs ++ more) = some name := by
  obtain ⟨pos, hpos⟩ := first?_eq_some_iff.1 h
  exact first?_eq_some_iff.2 ⟨pos, hpos.append more⟩

end FragmentAssembly.Header
