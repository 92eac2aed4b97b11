/-
FragmentAssembly/Header/Search.lean

Finding the declared name of a text.  The search runs over the bytes of the text from
one place of the word `fragment` to the next; such places never overlap, because the
word does not end the way it begins.  At each one it reads the blanks and the run of
name bytes that follow, and the first place that reads as a header gives the name.
-/
import FragmentAssembly.Text.Bytes
import FragmentAssembly.Header.Basic

namespace FragmentAssembly.Header

open Text

/-- The bytes of the keyword. -/
def keywordBytes : List UInt8 := keyword.map asciiByte

/-- Where a name stands: its first position and the position after its last. -/
structure Span where
  start : Nat
  stop : Nat
deriving DecidableEq, Repr

/-- The name of the header whose keyword ends at `pos`, if it reads as a header. -/
def spanAfter? (bytes : ByteArray) (pos : Nat) : Option Span :=
  let start := runEnd isBlankByte bytes pos
  if byteAt isNameStartByte bytes start then
    let stop := runEnd isNameByte bytes (start + 1)
    if byteAt isBlankByte bytes stop then some ⟨start, stop⟩ else none
  else none

/-- The name of the first header from `pos` on. -/
def span? (bytes : ByteArray) (pos : Nat) : Option Span :=
  match _h : find? keywordBytes bytes pos with
  | none => none
  | some found =>
    (spanAfter? bytes (found + keywordBytes.length)).or
      (span? bytes (found + keywordBytes.length))
termination_by bytes.size - pos
decreasing_by
  have hb := find?_bounds _h
  have : keywordBytes.length = 8 := rfl
  omega

theorem span?_of_none {bytes : ByteArray} {pos : Nat} (h : find? keywordBytes bytes pos = none) :
    span? bytes pos = none := by
  rw [span?]
  split
  · rfl
  · simp_all

theorem span?_of_some {bytes : ByteArray} {pos found : Nat}
    (h : find? keywordBytes bytes pos = some found) :
    span? bytes pos =
      (spanAfter? bytes (found + keywordBytes.length)).or
        (span? bytes (found + keywordBytes.length)) := by
  rw [span?]
  split <;> simp_all

/-- The name that a text declares, if it declares one. -/
def name? (text : String) : Option String :=
  (span? text.toUTF8 0).bind fun span => slice? text.toUTF8 span.start span.stop

/-- Whether a text is a whole fragment definition, to be kept as it is: it declares a
name, and apart from leading blanks it begins with the keyword. -/
def leads (text : String) : Bool :=
  keyword.isPrefixOf (trimStart text).toList && (name? text).isSome

end FragmentAssembly.Header
