/-
FragmentAssembly/Proofs/Text/Runs.lean

Runs.  The readers of names, blanks, dots and dollar signs all take the longest run of characters
that pass a test.  Such a run ends where the next character does not pass it, or where there is
none: so if characters are written as a run and something that does not begin with another character
of it, the run is what is read (`takeWhile_run_append`), and the rest is what is left
(`dropWhile_run_append`, `head?_dropWhile_any`).
-/

namespace FragmentAssembly.Text

variable {p : Char → Bool} {run rest : List Char}

theorem takeWhile_run_append (hrun : ∀ c ∈ run, p c = true) (hrest : rest.head?.any p = false) :
    (run ++ rest).takeWhile p = run := by
  rw [List.takeWhile_append_of_pos hrun]
  rcases rest with - | ⟨c, rest⟩
  · rw [List.takeWhile_nil, List.append_nil]
  · rw [List.takeWhile_cons_of_neg (by simpa using hrest), List.append_nil]

theorem dropWhile_run_append (hrun : ∀ c ∈ run, p c = true) (hrest : rest.head?.any p = false) :
    (run ++ rest).dropWhile p = rest := by
  rw [List.dropWhile_append_of_pos hrun]
  rcases rest with - | ⟨c, rest⟩
  · rfl
  · exact List.dropWhile_cons_of_neg (by simpa using hrest)

theorem head?_dropWhile_any (p : Char → Bool) (cs : List Char) :
    (cs.dropWhile p).head?.any p = false := by
  have hnot := List.head?_dropWhile_not p cs
  rcases hhead : (cs.dropWhile p).head? with - | c
  · rfl
  · rw [hhead] at hnot
    simpa using hnot

/-- A run of one character is as many copies of it as it is long. -/
theorem takeWhile_beq_eq_replicate (c : Char) (cs : List Char) :
    cs.takeWhile (· == c) = List.replicate (cs.takeWhile (· == c)).length c :=
  List.eq_replicate_of_mem fun d hd => by
    simpa using List.all_eq_true.1 List.all_takeWhile d hd

end FragmentAssembly.Text
