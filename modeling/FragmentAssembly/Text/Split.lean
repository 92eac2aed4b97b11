/-
FragmentAssembly/Text/Split.lean

Splitting a text at a character: at every place where it stands (`splitOn`), or at the
first one only (`splitFirst?`).  The pieces hold the rest of the text: put together
again with the character between them they give the text back (`eq_of_splitFirst?`).
A text also splits into lines (`lines`), where a line end may be one character or two.
-/

namespace FragmentAssembly.Text

/-- The pieces of a text between the places of a character. -/
def splitOn (separator : Char) (text : String) : List String :=
  (text.toList.splitOn separator).map String.ofList

/-- What stands before and after the first place of a character, if it has one. -/
def splitFirst? (separator : Char) (text : String) : Option (String × String) :=
  match text.toList.dropWhile (· != separator) with
  | [] => none
  | _ :: after => some (String.ofList (text.toList.takeWhile (· != separator)), String.ofList after)

/-- The two sides of the first place, and that it is the first. -/
theorem eq_of_splitFirst? {separator : Char} {text before after : String}
    (h : splitFirst? separator text = some (before, after)) :
    text.toList = before.toList ++ separator :: after.toList ∧ separator ∉ before.toList := by
  unfold splitFirst? at h
  split at h
  · cases h
  · rename_i c rest hdrop
    cases h
    have hc : c = separator := by
      have hnot := List.head?_dropWhile_not (· != separator) text.toList
      rw [hdrop] at hnot
      simpa using hnot
    refine ⟨?_, fun hmem => ?_⟩
    · rw [String.toList_ofList, String.toList_ofList, ← hc, ← hdrop, hc,
        List.takeWhile_append_dropWhile]
    · have hall := List.all_takeWhile (p := (· != separator)) (l := text.toList)
      rw [String.toList_ofList] at hmem
      simpa using List.all_eq_true.1 hall _ hmem

/-- A text is split at a character where it stands first. -/
theorem splitFirst?_append {separator : Char} {before : String} (h : separator ∉ before.toList)
    (after : String) :
    splitFirst? separator (before ++ String.singleton separator ++ after) =
      some (before, after) := by
  have hbefore : ∀ c ∈ before.toList, (c != separator) = true := fun c hc =>
    bne_iff_ne.2 fun heq => h (heq ▸ hc)
  have htext : (before ++ String.singleton separator ++ after).toList =
      before.toList ++ separator :: after.toList := by
    simp [String.toList_append]
  rw [splitFirst?, htext, List.dropWhile_append_of_pos hbefore,
    List.takeWhile_append_of_pos hbefore, List.dropWhile_cons_of_neg (by simp),
    List.takeWhile_cons_of_neg (by simp)]
  simp

/-- A text in which the character does not stand is not split. -/
theorem splitFirst?_of_notMem {separator : Char} {text : String} (h : separator ∉ text.toList) :
    splitFirst? separator text = none := by
  have hdrop : (text.toList ++ []).dropWhile (· != separator) = [] :=
    List.dropWhile_append_of_pos fun c hc => bne_iff_ne.2 fun heq => h (heq ▸ hc)
  rw [List.append_nil] at hdrop
  rw [splitFirst?, hdrop]

/-- Texts that are joined by a character, which stands in none of them, are the pieces. -/
theorem splitOn_intercalate {separator : Char} {texts : List String} (hne : texts ≠ [])
    (h : ∀ text ∈ texts, separator ∉ text.toList) :
    splitOn separator ((String.singleton separator).intercalate texts) = texts := by
  have hpieces : ∀ piece ∈ texts.map String.toList, separator ∉ piece := by
    intro piece hpiece
    obtain ⟨text, htext, rfl⟩ := List.mem_map.1 hpiece
    exact h text htext
  rw [splitOn, String.toList_intercalate, String.toList_singleton,
    List.splitOn_intercalate separator hpieces (by simpa using hne), List.map_map]
  simp

/-- A line without the carriage return at its end. -/
def withoutReturn (line : String) : String :=
  if line.toList.getLast? = some '\r' then String.ofList line.toList.dropLast else line

/-- The lines of a text.  Each ends with a newline, or with a carriage return and a
newline; what stands after the last of them is a line too, unless it is empty. -/
def lines (text : String) : List String :=
  let pieces := splitOn '\n' text
  pieces.dropLast.map withoutReturn ++ pieces.getLast?.toList.filter (!·.isEmpty)

end FragmentAssembly.Text
