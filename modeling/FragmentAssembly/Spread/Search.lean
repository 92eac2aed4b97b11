/-
FragmentAssembly/Spread/Search.lean

Finding the spreads of a text.  The search runs over the bytes of the text and skips
ahead: a round finds the next three dots and reads the run of name bytes after them;
the next round begins after that run or, when the run is empty, one byte after the
first of the dots, so that `....Name` is still seen.

Each round is kept as a pair of positions (`Round`), which is what bounds the search:
the rounds stand in strictly increasing order (`lt_resume`) and inside the text
(`bounds_of_next?`).
-/
import FragmentAssembly.Text.Bytes
import FragmentAssembly.Spread.Basic

namespace FragmentAssembly.Spread

open Text

/-- The bytes of the three dots. -/
def dots : List UInt8 := dotChars.map asciiByte

/-- One round of the search: where three dots were found, and where the run of name
bytes after them ends. -/
structure Round where
  dotsAt : Nat
  nameStop : Nat
deriving DecidableEq, Repr

namespace Round

/-- The name begins directly after the dots. -/
def nameStart (r : Round) : Nat := r.dotsAt + dots.length

/-- Where the next round begins. -/
def resume (r : Round) : Nat :=
  if r.nameStop = r.nameStart then r.dotsAt + 1 else r.nameStop

/-- The next round from `pos` on, if there are three dots left. -/
def next? (bytes : ByteArray) (pos : Nat) : Option Round :=
  (find? dots bytes pos).map fun found =>
    ⟨found, runEnd isNameByte bytes (found + dots.length)⟩

/-- The name that the round read, unless the run is empty or opens an inline fragment. -/
def name? (bytes : ByteArray) (r : Round) : Option String :=
  if r.nameStop = r.nameStart then none
  else (slice? bytes r.nameStart r.nameStop).filter (· != String.ofList inlineWord)

/-- A round looks only at positions inside the text. -/
theorem bounds_of_next? {bytes : ByteArray} {pos : Nat} {r : Round}
    (h : next? bytes pos = some r) :
    pos ≤ r.dotsAt ∧ r.nameStart ≤ r.nameStop ∧ r.nameStop ≤ bytes.size := by
  simp only [next?, Option.map_eq_some_iff] at h
  obtain ⟨found, hfound, rfl⟩ := h
  have hb := find?_bounds hfound
  have hw := le_of_wordAt (Nat.le_of_lt hb.2) (wordAt_of_find? hfound)
  exact ⟨hb.1, le_runEnd _ _ _, runEnd_le hw⟩

/-- Every round moves the search on. -/
theorem lt_resume {bytes : ByteArray} {pos : Nat} {r : Round}
    (h : next? bytes pos = some r) : pos < r.resume := by
  have hb := bounds_of_next? h
  have hlen : r.nameStart = r.dotsAt + 3 := rfl
  unfold resume
  split <;> omega

end Round

/-- The rounds of the search from `pos` on. -/
def rounds (bytes : ByteArray) (pos : Nat) : List Round :=
  match _h : Round.next? bytes pos with
  | none => []
  | some r => r :: rounds bytes r.resume
termination_by bytes.size - pos
decreasing_by
  have hb := Round.bounds_of_next? _h
  have hl := Round.lt_resume _h
  have hstart : r.nameStart = r.dotsAt + 3 := rfl
  omega

theorem rounds_of_none {bytes : ByteArray} {pos : Nat} (h : Round.next? bytes pos = none) :
    rounds bytes pos = [] := by
  rw [rounds]
  split
  · rfl
  · simp_all

theorem rounds_of_some {bytes : ByteArray} {pos : Nat} {r : Round}
    (h : Round.next? bytes pos = some r) : rounds bytes pos = r :: rounds bytes r.resume := by
  rw [rounds]
  split <;> simp_all

/-- The names of the spreads of a text, in the order in which they stand there and as
often as they stand there. -/
def ofText (text : String) : List String :=
  (rounds text.toUTF8 0).filterMap (Round.name? text.toUTF8)

end FragmentAssembly.Spread
