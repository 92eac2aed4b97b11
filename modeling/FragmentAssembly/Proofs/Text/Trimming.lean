/-
FragmentAssembly/Proofs/Text/Trimming.lean

Trimmed texts.  Trimming takes away blanks and leaves a text with no blank at its end, or at
neither of its ends (`exists_trimEnd_eq_append`, `padded_trim`, `trimmed_trim`).  There is
only one such text between the blanks (`trimEnd_eq`, `trim_eq`), so what trimming gives can be read
off a text that is written as blanks, something, and blanks.

No name character is a blank, ASCII or not, so a name is never shortened
(`isBlank_of_isNameChar`).
-/
import FragmentAssembly.Proofs.Text.Runs
import FragmentAssembly.Text.Blank
import FragmentAssembly.Text.Name

namespace FragmentAssembly.Text

variable {text kept : String} {before after : List Char}

/-! ### Blanks at the ends -/

/-- Blanks and nothing else. -/
def AllBlank (cs : List Char) : Prop :=
  ∀ c ∈ cs, isBlank c = true

/-- Whether a text begins with a blank. -/
def beginsBlank (text : String) : Bool :=
  text.toList.head?.any isBlank

/-- Whether a text ends with a blank. -/
def endsBlank (text : String) : Bool :=
  text.toList.getLast?.any isBlank

/-- A text that neither begins nor ends with a blank. -/
structure Trimmed (text : String) : Prop where
  begins : beginsBlank text = false
  ends : endsBlank text = false

/-- A text with blanks around it, which may be missing. -/
def Padded (text kept : String) : Prop :=
  ∃ before after, AllBlank before ∧ AllBlank after ∧
    text.toList = before ++ (kept.toList ++ after)

theorem padded_refl (text : String) : Padded text text :=
  ⟨[], [], List.forall_mem_nil _, List.forall_mem_nil _, by rw [List.append_nil, List.nil_append]⟩

/-- What begins a name or goes on with it is no blank. -/
theorem isBlank_of_isNameChar {c : Char} (h : isNameChar c = true) : isBlank c = false := by
  obtain ⟨hlow, hhigh⟩ := bounds_of_isNameChar h
  rw [Bool.eq_false_iff]
  intro hblank
  obtain ⟨range, hrange, hc⟩ := List.any_eq_true.1 hblank
  -- every range ends below the digits or begins above the letters
  have hends : range.2 < '0'.toNat ∨ 'z'.toNat < range.1 := by
    revert range
    simp [blankRanges]
  rw [Bool.and_eq_true, decide_eq_true_eq, decide_eq_true_eq] at hc
  omega

/-- A text that goes on begins as it did. -/
theorem head?_append_of_ne (hne : text ≠ "") (more : List Char) :
    (text.toList ++ more).head? = text.toList.head? := by
  obtain ⟨c, cs, hchars⟩ := List.exists_cons_of_ne_nil (mt String.toList_eq_nil_iff.1 hne)
  rw [hchars, List.cons_append, List.head?_cons, List.head?_cons]

/-! ### What trimming leaves -/

theorem beginsBlank_trimStart (text : String) : beginsBlank (trimStart text) = false := by
  rw [beginsBlank, trimStart, String.toList_ofList]
  exact head?_dropWhile_any isBlank _

theorem endsBlank_trimEnd (text : String) : endsBlank (trimEnd text) = false := by
  rw [endsBlank, trimEnd, String.toList_ofList, List.getLast?_reverse]
  exact head?_dropWhile_any isBlank _

/-- Trimming the end takes away blanks. -/
theorem exists_trimEnd_eq_append (text : String) :
    ∃ after, AllBlank after ∧ text.toList = (trimEnd text).toList ++ after := by
  refine ⟨_, fun c hc => ?_, eq_append_trimEnd text⟩
  exact List.all_eq_true.1 List.all_takeWhile c (List.mem_reverse.1 hc)

/-- Trimming takes away blanks at both ends. -/
theorem padded_trim (text : String) : Padded text (trim text) := by
  obtain ⟨after, hafter, hend⟩ := exists_trimEnd_eq_append (trimStart text)
  refine ⟨text.toList.takeWhile isBlank, after, fun c hc => ?_, hafter, ?_⟩
  · exact List.all_eq_true.1 List.all_takeWhile c hc
  · rw [trim, ← hend]
    exact eq_append_trimStart text

theorem trimmed_trim (text : String) : Trimmed (trim text) where
  begins := by
    -- what is left at the end begins as the text did before
    obtain ⟨after, -, hend⟩ := exists_trimEnd_eq_append (trimStart text)
    have hbegins := beginsBlank_trimStart text
    rw [beginsBlank, hend] at hbegins
    by_cases hne : trim text = ""
    · rw [hne]
      rfl
    · rw [beginsBlank, ← head?_append_of_ne hne after]
      exact hbegins
  ends := endsBlank_trimEnd _

/-! ### What trimming gives -/

theorem trimStart_eq (h : text.toList = before ++ kept.toList) (hbefore : AllBlank before)
    (hkept : beginsBlank kept = false) : trimStart text = kept := by
  rw [trimStart, h, dropWhile_run_append hbefore hkept, String.ofList_toList]

theorem trimEnd_eq (h : text.toList = kept.toList ++ after) (hafter : AllBlank after)
    (hkept : endsBlank kept = false) : trimEnd text = kept := by
  have hhead : kept.toList.reverse.head?.any isBlank = false := by
    rw [List.head?_reverse]
    exact hkept
  have hblanks : ∀ c ∈ after.reverse, isBlank c = true := fun c hc =>
    hafter c (List.mem_reverse.1 hc)
  rw [trimEnd, h, List.reverse_append, dropWhile_run_append hblanks hhead, List.reverse_reverse,
    String.ofList_toList]

/-- A trimmed text that stands between blanks is what trimming gives. -/
theorem trim_eq (h : Padded text kept) (hne : kept ≠ "") (hkept : Trimmed kept) :
    trim text = kept := by
  obtain ⟨before, after, hbefore, hafter, htext⟩ := h
  have hstart : trimStart text = String.ofList (kept.toList ++ after) := by
    refine trimStart_eq (by rw [htext, String.toList_ofList]) hbefore ?_
    rw [beginsBlank, String.toList_ofList, head?_append_of_ne hne]
    exact hkept.begins
  rw [trim, hstart]
  exact trimEnd_eq String.toList_ofList hafter hkept.ends

end FragmentAssembly.Text
