/-
FragmentAssembly/Text/Name.lean

Names.  A name begins with `_` or an ASCII letter and goes on with `_`, ASCII
letters and ASCII digits; no other character belongs to one.  A name starter is a
name character (`isNameChar_of_isNameStart`), and every name character is below
128 (`lt_of_isNameChar`), which is what lets a search for names work on the bytes
of a text.
-/

namespace FragmentAssembly.Text

/-- A character that may begin a name. -/
def isNameStart (c : Char) : Bool :=
  c == '_' || c.isAlpha

/-- A character that may stand inside a name. -/
def isNameChar (c : Char) : Bool :=
  c == '_' || c.isAlphanum

theorem isNameChar_of_isNameStart {c : Char} (h : isNameStart c = true) : isNameChar c = true := by
  simp only [isNameStart, isNameChar, Char.isAlphanum, Bool.or_eq_true] at *
  exact h.imp_right Or.inl

/-- Name characters are digits, or they come after them; the last one is a letter. -/
theorem bounds_of_isNameChar {c : Char} (h : isNameChar c = true) :
    '0'.toNat ≤ c.toNat ∧ c.toNat ≤ 'z'.toNat := by
  have h' : (c == '_' || (decide ('A'.val ≤ c.val ∧ c.val ≤ 'Z'.val) ||
      decide ('a'.val ≤ c.val) && decide (c.val ≤ 'z'.val)) ||
      decide ('0'.val ≤ c.val) && decide (c.val ≤ '9'.val)) = true := by
    rw [Bool.or_assoc]
    exact h
  simp only [Bool.or_eq_true, Bool.and_eq_true, beq_iff_eq, decide_eq_true_eq] at h'
  rcases h' with (rfl | h' | h') | h'
  · decide
  all_goals
    have hlow := UInt32.le_iff_toNat_le.1 h'.1
    have hhigh := UInt32.le_iff_toNat_le.1 h'.2
    exact ⟨Nat.le_trans (by decide) hlow, Nat.le_trans hhigh (by decide)⟩

/-- Names are ASCII. -/
theorem lt_of_isNameChar {c : Char} (h : isNameChar c = true) : c.toNat < 128 :=
  Nat.lt_of_le_of_lt (bounds_of_isNameChar h).2 (by decide)

/-- A text that is one name: a starter, and name characters after it. -/
def isName (text : String) : Bool :=
  match text.toList with
  | [] => false
  | c :: cs => isNameStart c && cs.all isNameChar

end FragmentAssembly.Text
