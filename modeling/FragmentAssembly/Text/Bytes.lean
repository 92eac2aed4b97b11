/-
FragmentAssembly/Text/Bytes.lean

Searching the bytes of a text.  A text is stored in UTF-8, where a character below
128 is one byte of its own number and every other character is two to four bytes of
128 and more.  Names, dots, blanks and keywords are all below 128, so a search for
them can go byte by byte; a byte is judged as the character of its number, and a
byte of 128 or more is never one that is looked for.

* `find?`   the first place, from a position on, where a word stands;
* `runEnd`  the end of the longest run of bytes of one sort;
* `slice?`  the text between two positions, which is refused (`none`) if a position
  lies outside the text or inside a character.
-/
import FragmentAssembly.Text.Blank
import FragmentAssembly.Text.Name

namespace FragmentAssembly.Text

/-- A byte that stands for a character that may begin a name. -/
def isNameStartByte (b : UInt8) : Bool :=
  isNameStart (Char.ofUInt8 b)

/-- A byte that stands for a name character. -/
def isNameByte (b : UInt8) : Bool :=
  isNameChar (Char.ofUInt8 b)

/-- A byte that stands for an ASCII blank. -/
def isBlankByte (b : UInt8) : Bool :=
  isAsciiBlank (Char.ofUInt8 b)

/-- The byte of an ASCII character. -/
def asciiByte (c : Char) : UInt8 :=
  c.toUInt8

/-- Whether there is a byte at `pos` and it passes the test. -/
def byteAt (test : UInt8 → Bool) (bytes : ByteArray) (pos : Nat) : Bool :=
  if h : pos < bytes.size then test bytes[pos] else false

/-- Whether the word stands at `pos`. -/
def wordAt (bytes : ByteArray) : (word : List UInt8) → (pos : Nat) → Bool
  | [], _ => true
  | b :: word, pos => byteAt (· == b) bytes pos && wordAt bytes word (pos + 1)

/-- The first position, from `pos` on, where the word stands. -/
def find? (word : List UInt8) (bytes : ByteArray) (pos : Nat) : Option Nat :=
  if pos < bytes.size then
    if wordAt bytes word pos then some pos else find? word bytes (pos + 1)
  else none
termination_by bytes.size - pos

/-- The position after the longest run of bytes, from `pos` on, that pass the test. -/
def runEnd (test : UInt8 → Bool) (bytes : ByteArray) (pos : Nat) : Nat :=
  if byteAt test bytes pos then runEnd test bytes (pos + 1) else pos
termination_by bytes.size - pos
decreasing_by
  rename_i h
  simp only [byteAt] at h
  split at h
  · omega
  · cases h

/-- The text from position `start` up to position `stop`, if both lie on the border
of a character. -/
def slice? (bytes : ByteArray) (start stop : Nat) : Option String :=
  if start ≤ stop ∧ stop ≤ bytes.size then String.fromUTF8? (bytes.extract start stop) else none

/-! ### Where a search ends -/

/-- What is found lies inside the text and not before the start of the search. -/
theorem find?_bounds {word : List UInt8} {bytes : ByteArray} {pos found : Nat}
    (h : find? word bytes pos = some found) : pos ≤ found ∧ found < bytes.size := by
  fun_induction find? word bytes pos with
  | case1 pos hlt _ =>
    cases h
    exact ⟨Nat.le_refl _, hlt⟩
  | case2 pos hlt _ ih =>
    have := ih h
    omega
  | case3 => cases h

/-- The word stands where it is found. -/
theorem wordAt_of_find? {word : List UInt8} {bytes : ByteArray} {pos found : Nat}
    (h : find? word bytes pos = some found) : wordAt bytes word found = true := by
  fun_induction find? word bytes pos with
  | case1 pos _ hw =>
    cases h
    exact hw
  | case2 pos _ _ ih => exact ih h
  | case3 => cases h

theorem lt_of_byteAt {test : UInt8 → Bool} {bytes : ByteArray} {pos : Nat}
    (h : byteAt test bytes pos = true) : pos < bytes.size := by
  simp only [byteAt] at h
  split at h
  · assumption
  · cases h

/-- A word that stands at `pos` ends inside the text. -/
theorem le_of_wordAt {bytes : ByteArray} {word : List UInt8} {pos : Nat} (hpos : pos ≤ bytes.size)
    (h : wordAt bytes word pos = true) : pos + word.length ≤ bytes.size := by
  induction word generalizing pos with
  | nil => exact hpos
  | cons b word ih =>
    simp only [wordAt, Bool.and_eq_true] at h
    have := ih (lt_of_byteAt h.1) h.2
    simp only [List.length_cons]
    omega

/-- A run ends at or after the place where it starts. -/
theorem le_runEnd (test : UInt8 → Bool) (bytes : ByteArray) (pos : Nat) :
    pos ≤ runEnd test bytes pos := by
  fun_induction runEnd test bytes pos with
  | case1 pos _ ih => omega
  | case2 => exact Nat.le_refl _

/-- A run that starts inside the text ends inside it. -/
theorem runEnd_le {test : UInt8 → Bool} {bytes : ByteArray} {pos : Nat} (hpos : pos ≤ bytes.size) :
    runEnd test bytes pos ≤ bytes.size := by
  fun_induction runEnd test bytes pos with
  | case1 pos h ih => exact ih (lt_of_byteAt h)
  | case2 => exact hpos

end FragmentAssembly.Text
