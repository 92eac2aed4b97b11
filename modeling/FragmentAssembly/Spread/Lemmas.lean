/-
FragmentAssembly/Spread/Lemmas.lean

The search finds exactly the spreads.  `Spread.ofText` skips ahead over the bytes of a
text, `Spread.all` looks at every place of its characters; they give the same names
(`ofText_eq_all`).  The proof follows the search from border to border: where three dots
stand next, what was passed over holds no spread; after a name, the run that was read
holds none either, because a dot is no name character.
-/
import FragmentAssembly.Spread.Search
import FragmentAssembly.Text.Encoded

namespace FragmentAssembly.Spread

open Text

theorem lt_of_mem_dotChars : ∀ c ∈ dotChars, c.toNat < 128 := by
  simp [dotChars]

/-! ### What the search skips -/

/-- Without three dots at the beginning there is no spread there. -/
theorem here?_eq_none_of_not_isPrefix {cs : List Char} (h : dotChars.isPrefixOf cs = false) :
    here? cs = none := by
  have : run? cs = none := by
    unfold run?
    split
    · simp [dotChars, List.isPrefixOf] at h
    · rfl
  rw [here?, this]
  rfl

/-- Three dots and what follows them. -/
theorem eq_dots_append_of_isPrefix {cs : List Char} (h : dotChars.isPrefixOf cs = true) :
    ∃ rest, cs = '.' :: '.' :: '.' :: rest := by
  obtain ⟨rest, rfl⟩ := List.isPrefixOf_iff_prefix.1 h
  exact ⟨rest, rfl⟩

/-- Three dots with no name character after them are no spread. -/
theorem here?_of_empty_run {rest : List Char} (h : rest.takeWhile isNameChar = []) :
    here? ('.' :: '.' :: '.' :: rest) = none := by
  simp [here?, run?, h]

/-- Three dots and a run of name characters are the spread of that run. -/
theorem here?_of_run {rest : List Char} (h : rest.takeWhile isNameChar ≠ []) :
    here? ('.' :: '.' :: '.' :: rest) =
      (some (rest.takeWhile isNameChar)).filter (· != inlineWord) := by
  rw [here?, run?]
  split
  · rename_i heq
    exact absurd heq h
  · rfl

/-- After a spread the reading goes on behind its name. -/
theorem all_of_run {rest : List Char} (h : rest.takeWhile isNameChar ≠ []) :
    all ('.' :: '.' :: '.' :: rest) =
      ((some (rest.takeWhile isNameChar)).filter (· != inlineWord)).toList ++
        all (rest.dropWhile isNameChar) := by
  cases rest with
  | nil => exact absurd rfl h
  | cons c rest =>
    have hc : isNameChar c = true := by
      apply Decidable.byContradiction
      intro hc
      rw [List.takeWhile_cons_of_neg hc] at h
      exact h rfl
    have hdot := ne_dot_of_isNameChar hc
    have h2 : dotChars.isPrefixOf ('.' :: '.' :: c :: rest) = false := by
      simp [dotChars, List.isPrefixOf, Ne.symm hdot]
    have h1 : dotChars.isPrefixOf ('.' :: c :: rest) = false := by
      simp [dotChars, List.isPrefixOf, Ne.symm hdot]
    rw [all_cons, here?_of_run h, all_cons, here?_eq_none_of_not_isPrefix h2, all_cons,
      here?_eq_none_of_not_isPrefix h1]
    congr 1
    show all (c :: rest) = _
    conv => lhs; rw [← List.takeWhile_append_dropWhile (p := isNameChar) (l := c :: rest)]
    refine all_append_of_no_dot _ _ fun d hd => ne_dot_of_isNameChar ?_
    exact List.all_eq_true.1 List.all_takeWhile d hd

/-! ### The search from border to border -/

theorem rounds_congr {bytes : ByteArray} {pos pos' : Nat}
    (h : Round.next? bytes pos = Round.next? bytes pos') : rounds bytes pos = rounds bytes pos' := by
  rw [rounds, rounds]
  split <;> split <;> simp_all

/-- Where the characters begin with no three dots, the search finds what it finds from the
next character on. -/
theorem rounds_of_not_isPrefix {bytes : ByteArray} {pos : Nat} {c : Char} {cs : List Char}
    (h : Before bytes pos (c :: cs)) (hp : dotChars.isPrefixOf (c :: cs) = false) :
    rounds bytes pos = rounds bytes (pos + (String.utf8EncodeChar c).length) := by
  apply rounds_congr
  rw [Round.next?, Round.next?, dots,
    find?_of_not_isPrefix lt_of_mem_dotChars (List.cons_ne_nil _ _) h hp]

/-- Where the characters begin with three dots, the next round reads the run after them. -/
theorem rounds_of_isPrefix {bytes : ByteArray} {pos : Nat} {rest : List Char}
    (h : Before bytes pos ('.' :: '.' :: '.' :: rest)) :
    rounds bytes pos =
      ⟨pos, pos + 3 + (rest.takeWhile isNameChar).length⟩ ::
        rounds bytes (Round.mk pos (pos + 3 + (rest.takeWhile isNameChar).length)).resume := by
  have hfind : find? dots bytes pos = some pos :=
    find?_of_isPrefix lt_of_mem_dotChars (List.cons_ne_nil _ _) h
      (by simp [dotChars, List.isPrefixOf])
  have hafter : Before bytes (pos + 3) rest :=
    (show Before bytes pos (dotChars ++ rest) from h).skipAscii lt_of_mem_dotChars
  have hrun := (runEnd_of_before reads_isNameByte hafter).1
  have hnext : Round.next? bytes pos =
      some ⟨pos, pos + 3 + (rest.takeWhile isNameChar).length⟩ := by
    rw [Round.next?, hfind, Option.map_some]
    show some (Round.mk pos (runEnd isNameByte bytes (pos + 3))) = _
    rw [hrun]
  exact rounds_of_some hnext

theorem ofList_bne_inlineWord (run : List Char) :
    (String.ofList run != String.ofList inlineWord) = (run != inlineWord) := by
  rw [Bool.eq_iff_iff, bne_iff_ne, bne_iff_ne]
  exact not_congr ⟨fun h => by simpa using congrArg String.toList h, fun h => by rw [h]⟩

/-- From every border on, the search finds the spreads of the characters to come. -/
theorem names_rounds {bytes : ByteArray} {pos : Nat} {cs : List Char} (h : Before bytes pos cs) :
    (rounds bytes pos).filterMap (Round.name? bytes) = (all cs).map String.ofList := by
  induction hn : cs.length using Nat.strongRecOn generalizing pos cs with
  | _ n ih =>
  subst hn
  cases cs with
  | nil =>
    have hnext : Round.next? bytes pos = none := by rw [Round.next?, find?_of_nil h]; rfl
    rw [rounds_of_none hnext]
    rfl
  | cons c cs =>
    cases hp : dotChars.isPrefixOf (c :: cs) with
    | false =>
      rw [rounds_of_not_isPrefix h hp, ih cs.length (by simp) h.skip rfl, all_cons,
        here?_eq_none_of_not_isPrefix hp]
      rfl
    | true =>
      obtain ⟨rest, heq⟩ := eq_dots_append_of_isPrefix hp
      rw [heq] at h ⊢
      have hlen : (c :: cs).length = rest.length + 3 := by rw [heq]; rfl
      have hafter : Before bytes (pos + 3) rest :=
        (show Before bytes pos (dotChars ++ rest) from h).skipAscii lt_of_mem_dotChars
      rw [rounds_of_isPrefix h, List.filterMap_cons]
      by_cases hrun : rest.takeWhile isNameChar = []
      · have hresume : (Round.mk pos (pos + 3 + (rest.takeWhile isNameChar).length)).resume =
            pos + 1 := by
          rw [hrun]
          exact if_pos rfl
        have hname : Round.name? bytes ⟨pos, pos + 3 + (rest.takeWhile isNameChar).length⟩ =
            none := by
          rw [hrun]
          exact if_pos rfl
        rw [hname, hresume, all_cons, here?_of_empty_run hrun]
        have hnext : Before bytes pos (['.'] ++ '.' :: '.' :: rest) := h
        exact ih (rest.length + 2) (by omega) (hnext.skipAscii (by simp)) rfl
      · have hpos : 0 < (rest.takeWhile isNameChar).length := List.length_pos_iff.2 hrun
        have hne : ¬ pos + 3 + (rest.takeWhile isNameChar).length = pos + 3 := by omega
        have hresume : (Round.mk pos (pos + 3 + (rest.takeWhile isNameChar).length)).resume =
            pos + 3 + (rest.takeWhile isNameChar).length := if_neg hne
        have hascii : ∀ d ∈ rest.takeWhile isNameChar, d.toNat < 128 := fun d hd =>
          lt_of_isNameChar (List.all_eq_true.1 List.all_takeWhile d hd)
        have hslice : slice? bytes (pos + 3) (pos + 3 + (rest.takeWhile isNameChar).length) =
            some (String.ofList (rest.takeWhile isNameChar)) := by
          rw [← List.takeWhile_append_dropWhile (p := isNameChar) (l := rest)] at hafter
          exact slice?_of_ascii hascii hafter
        have hname : Round.name? bytes ⟨pos, pos + 3 + (rest.takeWhile isNameChar).length⟩ =
            (some (String.ofList (rest.takeWhile isNameChar))).filter
              (· != String.ofList inlineWord) := by
          rw [← hslice]
          exact if_neg hne
        have hdrop : (rest.dropWhile isNameChar).length ≤ rest.length :=
          (List.dropWhile_sublist _).length_le
        rw [hname, hresume, all_of_run hrun, List.map_append,
          ← ih _ (by omega) (runEnd_of_before reads_isNameByte hafter).2 rfl]
        simp only [Option.filter_some, ofList_bne_inlineWord]
        split <;> rename_i heq' <;> split at heq' <;> simp_all

/-- The search and the reading of every place give the same names. -/
theorem ofText_eq_all (text : String) :
    ofText text = (all text.toList).map String.ofList :=
  names_rounds (before_toUTF8 text)

end FragmentAssembly.Spread
