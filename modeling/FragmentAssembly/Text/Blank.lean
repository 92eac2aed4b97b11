/-
FragmentAssembly/Text/Blank.lean

Blank characters, of which there are two sets.  Between the words of a definition
only the five ASCII blanks count (`isAsciiBlank`); the ends of a file, of a log
level and of a variable declaration are trimmed of every character with the
Unicode property White_Space (`isBlank`).  The second set contains the first
(`isBlank_of_isAsciiBlank`).

Trimming is dropping a blank run at one end, so a trimmed text is a part of the
text it came from (`eq_append_trimEnd`, `eq_append_trimStart`), and it holds all
that stands in front of a character that is not blank (`exists_trimEnd_eq`).
-/

namespace FragmentAssembly.Text

/-! ### The two sets -/

/-- The ranges of the property White_Space, in increasing order. -/
def blankRanges : List (Nat × Nat) :=
  [(0x09, 0x0d), (0x20, 0x20), (0x85, 0x85), (0xa0, 0xa0), (0x1680, 0x1680),
   (0x2000, 0x200a), (0x2028, 0x2029), (0x202f, 0x202f), (0x205f, 0x205f), (0x3000, 0x3000)]

/-- A character with the property White_Space. -/
def isBlank (c : Char) : Bool :=
  blankRanges.any fun (lo, hi) => lo ≤ c.toNat && c.toNat ≤ hi

/-- Space, tab, newline, form feed or carriage return: what may stand between the
words of a definition.  The vertical tab is not among them. -/
def isAsciiBlank (c : Char) : Bool :=
  c == ' ' || c == '\t' || c == '\n' || c == '\x0c' || c == '\r'

theorem isBlank_of_isAsciiBlank {c : Char} (h : isAsciiBlank c = true) : isBlank c = true := by
  simp only [isAsciiBlank, Bool.or_eq_true, beq_iff_eq] at h
  rcases h with (((rfl | rfl) | rfl) | rfl) | rfl <;> decide

/-! ### Trimming -/

/-- The text without its leading blanks. -/
def trimStart (text : String) : String :=
  String.ofList (text.toList.dropWhile isBlank)

/-- The text without its trailing blanks. -/
def trimEnd (text : String) : String :=
  String.ofList (text.toList.reverse.dropWhile isBlank).reverse

/-- The text without the blanks at its two ends. -/
def trim (text : String) : String :=
  trimEnd (trimStart text)

/-- Only blanks are lost at the start. -/
theorem eq_append_trimStart (text : String) :
    text.toList = text.toList.takeWhile isBlank ++ (trimStart text).toList := by
  simp [trimStart]

/-- Only blanks are lost at the end. -/
theorem eq_append_trimEnd (text : String) :
    text.toList = (trimEnd text).toList ++ (text.toList.reverse.takeWhile isBlank).reverse := by
  rw [trimEnd, String.toList_ofList, ← List.reverse_append, List.takeWhile_append_dropWhile,
    List.reverse_reverse]

/-- Trimming the end leaves a character that is not blank, and everything in front of it. -/
theorem exists_trimEnd_eq {text : String} {before after : List Char} {c : Char}
    (h : text.toList = before ++ c :: after) (hc : isBlank c = false) :
    ∃ kept, (trimEnd text).toList = before ++ c :: kept := by
  have hnot : ¬ isBlank c = true := by
    rw [hc]
    exact Bool.false_ne_true
  have hreverse : text.toList.reverse = after.reverse ++ c :: before.reverse := by
    rw [h, List.reverse_append, List.reverse_cons, List.append_assoc, List.singleton_append]
  refine ⟨(after.reverse.dropWhile isBlank).reverse, ?_⟩
  rw [trimEnd, String.toList_ofList, hreverse, List.dropWhile_append]
  split
  · rename_i hempty
    rw [List.isEmpty_iff.1 hempty, List.dropWhile_cons_of_neg hnot]
    simp
  · simp

end FragmentAssembly.Text
