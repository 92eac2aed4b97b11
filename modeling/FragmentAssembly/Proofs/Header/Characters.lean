/-
FragmentAssembly/Proofs/Header/Characters.lean

The search for a header, over characters.  It goes from one keyword to the next behind it
(`Chars.keywordEnds`) and reads behind each, first the blanks and then the run of name characters
(`Chars.spanAfter?`); the first place that reads as a header gives the name (`Chars.name?`).  The
search of `FragmentAssembly.Header.Search` is of this form too (`span?_eq_findSome?`).

Bytes that spell characters have their keywords and the names behind them at the positions of
the places that these have in the characters (`keywordEnds_map`, `spanAfter?_map`).
-/
import FragmentAssembly.Header.Lemmas
import FragmentAssembly.Proofs.Text.Characters

namespace FragmentAssembly.Header

open Text

/-- The span with the position of each of its places. -/
def Span.map (position : Nat → Nat) (span : Span) : Span :=
  ⟨position span.start, position span.stop⟩

/-! ### The search, over characters -/

namespace Chars

variable {cs : List Char} {place : Nat} {span : Span}

/-- The name of the header whose keyword ends at a place, if it reads as a header. -/
def spanAfter? (cs : List Char) (place : Nat) : Option Span :=
  let start := Chars.runEnd isAsciiBlank cs place
  if cs[start]?.any isNameStart then
    let stop := Chars.runEnd isNameChar cs (start + 1)
    if cs[stop]?.any isAsciiBlank then some ⟨start, stop⟩ else none
  else none

/-- The places behind the keywords that are found one after another. -/
def keywordEnds (cs : List Char) (place : Nat) : List Nat :=
  match _h : Chars.find? keyword cs place with
  | none => []
  | some found => (found + keyword.length) :: keywordEnds cs (found + keyword.length)
termination_by cs.length - place
decreasing_by
  have hb := Chars.of_find?_eq_some _h
  have : keyword.length = 8 := rfl
  omega

/-- Where the name of the first header stands. -/
def span? (cs : List Char) : Option Span :=
  (keywordEnds cs 0).findSome? (spanAfter? cs)

/-- The name that the characters declare, if they declare one. -/
def name? (cs : List Char) : Option (List Char) :=
  (span? cs).map fun span => Chars.slice cs span.start span.stop

theorem lt_of_spanAfter? (h : spanAfter? cs place = some span) : span.start < span.stop := by
  unfold spanAfter? at h
  simp only at h
  split at h
  · split at h
    · cases h
      exact Chars.le_runEnd _ _ _
    · cases h
  · cases h

end Chars

/-! ### Keyword after keyword, in bytes -/

/-- The positions behind the keywords that are found one after another. -/
def keywordEnds (bytes : ByteArray) (pos : Nat) : List Nat :=
  match _h : find? keywordBytes bytes pos with
  | none => []
  | some found => (found + keywordBytes.length) :: keywordEnds bytes (found + keywordBytes.length)
termination_by bytes.size - pos
decreasing_by
  have hb := find?_bounds _h
  have : keywordBytes.length = 8 := rfl
  omega

theorem keywordEnds_of_none {bytes : ByteArray} {pos : Nat}
    (h : find? keywordBytes bytes pos = none) : keywordEnds bytes pos = [] := by
  rw [keywordEnds]
  split
  · rfl
  · simp_all

theorem keywordEnds_of_some {bytes : ByteArray} {pos found : Nat}
    (h : find? keywordBytes bytes pos = some found) :
    keywordEnds bytes pos =
      (found + keywordBytes.length) :: keywordEnds bytes (found + keywordBytes.length) := by
  rw [keywordEnds]
  split <;> simp_all

/-- The search takes the first keyword that a name stands behind. -/
theorem span?_eq_findSome? (bytes : ByteArray) (pos : Nat) :
    span? bytes pos = (keywordEnds bytes pos).findSome? (spanAfter? bytes) := by
  fun_induction span? bytes pos with
  | case1 pos hnone =>
    rw [keywordEnds_of_none hnone]
    rfl
  | case2 pos found hfound ih =>
    rw [keywordEnds_of_some hfound, List.findSome?_cons, ih]
    cases spanAfter? bytes (found + keywordBytes.length) <;> rfl

/-! ### The same keywords and names in bytes -/

section Spelled

variable {bytes : ByteArray} {cs : List Char} {position : Nat → Nat}

/-- What is read behind a keyword in bytes is what is read in the characters. -/
theorem spanAfter?_map (h : Spells bytes cs position) (place : Nat) :
    spanAfter? bytes (position place) = (Chars.spanAfter? cs place).map (Span.map position) := by
  unfold spanAfter? Chars.spanAfter?
  simp only [h.runEnd_eq reads_isBlankByte, h.byteAt_eq reads_isNameStartByte]
  split
  · rename_i hstart
    -- one byte on is one character on, since a name begins with a character below 128
    simp only [← h.position_succ reads_isNameStartByte hstart, h.runEnd_eq reads_isNameByte,
      h.byteAt_eq reads_isBlankByte]
    split <;> rfl
  · rfl

theorem keywordEnds_map (h : Spells bytes cs position) (place : Nat) :
    keywordEnds bytes (position place) = (Chars.keywordEnds cs place).map position := by
  have hfind := h.find?_eq lt_of_mem_keyword (by decide : keyword ≠ [])
  fun_induction Chars.keywordEnds cs place with
  | case1 place hnone =>
    refine keywordEnds_of_none ?_
    rw [keywordBytes, hfind, hnone]
    rfl
  | case2 place found hfound ih =>
    obtain ⟨rest, hdrop, -⟩ := Chars.exists_drop_eq_of_find? hfound
    have hbehind : position (found + keyword.length) = position found + keywordBytes.length := by
      rw [h.position_add hdrop lt_of_mem_keyword, keywordBytes, List.length_map]
    have hmapped : find? keywordBytes bytes (position place) = some (position found) := by
      rw [keywordBytes, hfind, hfound]
      rfl
    rw [keywordEnds_of_some hmapped, ← hbehind, ih, List.map_cons]

theorem span?_map (h : Spells bytes cs position) :
    span? bytes 0 = (Chars.span? cs).map (Span.map position) := by
  have hends := keywordEnds_map h 0
  rw [h.position_zero] at hends
  rw [span?_eq_findSome?, hends, List.findSome?_map, Chars.span?, List.map_findSome?]
  congr 1
  funext place
  exact spanAfter?_map h place

end Spelled

/-- The search of the bytes finds the name that the search of the characters finds. -/
theorem name?_eq_chars (text : String) :
    name? text = (Chars.name? text.toList).map String.ofList := by
  rw [name?, span?_map (spells_border text), Chars.name?, Option.bind_map, Option.map_map]
  rcases hspan : Chars.span? text.toList with - | span
  · rfl
  · obtain ⟨place, -, hplace⟩ := List.exists_of_findSome?_eq_some hspan
    exact slice?_border text (Nat.le_of_lt (Chars.lt_of_spanAfter? hplace))

end FragmentAssembly.Header
