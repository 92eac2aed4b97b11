/-
FragmentAssembly/Proofs/Spread/Seam.lean

Joining texts.  The spreads of two joined texts are those of the first and then those of the
second (`ofText_append_of_seam`), if the second text begins in a way that no spread can be
read across the place where they meet (`Seam`): it does not go on with a name, and it goes on
with a dot only if three dots stand there.  Three dots are harmless even after further dots,
because what is read behind the earlier ones is a dot again and no name.
-/
import FragmentAssembly.Spread.Lemmas

namespace FragmentAssembly.Spread

open Text

/-- A text that can be joined to the end of any other one. -/
def Seam (q : List Char) : Prop :=
  ∀ c rest, q = c :: rest → isNameChar c = false ∧ (c = '.' → dotChars <+: q)

variable {p q : List Char}

theorem seam_cons {c : Char} (hname : isNameChar c = false) (hdot : c ≠ '.') (rest : List Char) :
    Seam (c :: rest) := by
  rintro d ds heq
  cases heq
  exact ⟨hname, fun h => absurd h hdot⟩

/-- A run that begins before a seam ends there at the latest. -/
theorem takeWhile_append_of_seam (h : Seam q) :
    (p ++ q).takeWhile isNameChar = p.takeWhile isNameChar := by
  have hq : q.takeWhile isNameChar = [] := by
    rcases q with - | ⟨c, rest⟩
    · rfl
    · exact List.takeWhile_cons_of_neg (by rw [(h c rest rfl).1]; exact Bool.false_ne_true)
  rw [List.takeWhile_append, hq, List.append_nil]
  split
  · rename_i hlen
    exact ((List.takeWhile_prefix isNameChar).eq_of_length hlen).symm
  · rfl

/-- Dots that go on across a seam are more than three, so no name stands behind the first
three of them. -/
theorem here?_append_of_dots (h : Seam q) {rest : List Char} (hp : dotChars.isPrefixOf p = false)
    (hp0 : p ≠ []) (heq : p ++ q = '.' :: '.' :: '.' :: rest) : here? (p ++ q) = none := by
  have hrun : rest.takeWhile isNameChar = [] := by
    -- one or two of the three dots stand before the seam
    rcases p with - | ⟨a, - | ⟨b, - | ⟨c, p⟩⟩⟩
    · exact absurd rfl hp0
    · simp only [List.cons_append, List.nil_append, List.cons.injEq] at heq
      obtain ⟨-, rfl⟩ := heq
      obtain ⟨more, hmore⟩ := (h '.' ('.' :: rest) rfl).2 rfl
      simp only [dotChars, List.cons_append, List.nil_append, List.cons.injEq, true_and] at hmore
      rw [← hmore]
      rfl
    · simp only [List.cons_append, List.nil_append, List.cons.injEq] at heq
      obtain ⟨-, -, rfl⟩ := heq
      obtain ⟨more, hmore⟩ := (h '.' rest rfl).2 rfl
      simp only [dotChars, List.cons_append, List.nil_append, List.cons.injEq, true_and] at hmore
      rw [← hmore]
      rfl
    · simp only [List.cons_append, List.cons.injEq] at heq
      obtain ⟨rfl, rfl, rfl, -⟩ := heq
      simp [dotChars, List.isPrefixOf] at hp
  rw [heq, here?_of_empty_run hrun]

/-- What stands at a place before a seam does not depend on what comes after the seam. -/
theorem here?_append_of_seam (h : Seam q) (hp : p ≠ []) : here? (p ++ q) = here? p := by
  cases hdots : dotChars.isPrefixOf p with
  | true =>
    obtain ⟨rest, rfl⟩ := eq_dots_append_of_isPrefix hdots
    have htake : (rest ++ q).takeWhile isNameChar = rest.takeWhile isNameChar :=
      takeWhile_append_of_seam h
    simp only [List.cons_append]
    by_cases hrun : rest.takeWhile isNameChar = []
    · rw [here?_of_empty_run hrun, here?_of_empty_run (htake.trans hrun)]
    · rw [here?_of_run hrun, here?_of_run (by rw [htake]; exact hrun), htake]
  | false =>
    rw [here?_eq_none_of_not_isPrefix hdots]
    cases hcross : dotChars.isPrefixOf (p ++ q) with
    | true =>
      obtain ⟨rest, heq⟩ := eq_dots_append_of_isPrefix hcross
      exact here?_append_of_dots h hdots hp heq
    | false => exact here?_eq_none_of_not_isPrefix hcross

/-- At a seam no spread is made and none is lost. -/
theorem all_append_of_seam (h : Seam q) : all (p ++ q) = all p ++ all q := by
  induction p with
  | nil => rfl
  | cons c p ih =>
    rw [List.cons_append, all_cons, ih, all_cons, ← List.append_assoc, ← List.cons_append,
      here?_append_of_seam h (List.cons_ne_nil c p)]

theorem ofText_append_of_seam {a b : String} (h : Seam b.toList) :
    ofText (a ++ b) = ofText a ++ ofText b := by
  rw [ofText_eq_all, ofText_eq_all, ofText_eq_all, String.toList_append, all_append_of_seam h,
    List.map_append]

/-- Texts on lines of their own are read one after another. -/
theorem ofText_append_lines (a : String) (lines : List String) :
    ofText (a ++ String.join (lines.map fun line => "\n" ++ line)) =
      ofText a ++ lines.flatMap ofText := by
  induction lines generalizing a with
  | nil => simp
  | cons line lines ih =>
    have htext : ("\n" ++ line).toList = '\n' :: line.toList := by
      rw [String.toList_append]
      rfl
    have hseam : Seam ("\n" ++ line).toList := by
      rw [htext]
      exact seam_cons (by decide) (by decide) line.toList
    have hline : ofText ("\n" ++ line) = ofText line := by
      rw [ofText_eq_all, ofText_eq_all, htext, all_cons_of_ne _ (by decide)]
    rw [List.map_cons, String.join_cons, ← String.append_assoc, ih,
      ofText_append_of_seam hseam, hline, List.flatMap_cons, List.append_assoc]

end FragmentAssembly.Spread
