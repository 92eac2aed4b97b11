/-
FragmentAssembly/Proofs/Spread/Readable.lean

Names that are read back from their spreads.  A fragment is written where it is used as three
dots and its name, and the search reads the longest run of name characters after three dots,
unless that run is the word of an inline fragment.  So the names that are read back are just
those runs (`Spread.Readable`, `ofText_dots_eq_iff`), and no other name is ever found
(`readable_of_mem_ofText`).

Where such a spread is put into a text, it is found between the spreads of what stands before
and after it, whatever these are, as long as no name character follows it directly
(`ofText_interpolate`).

Fragments may get any name that is given to them.  A declared name is readable unless it is the
word of an inline fragment (`readable_iff_of_isName`), and a derived one if its type is made of
name characters (`readable_derived_iff`).
-/
import FragmentAssembly.Header.Lemmas
import FragmentAssembly.Proofs.Registry.FreeName
import FragmentAssembly.Proofs.Spread.Seam
import FragmentAssembly.Proofs.Text.Runs

namespace FragmentAssembly

open Text

namespace Spread

/-- A name that is read back from its spread: a run of name characters, not empty, and not the
word of an inline fragment. -/
def Readable (name : String) : Prop :=
  name ≠ "" ∧ name ≠ "on" ∧ ∀ c ∈ name.toList, isNameChar c = true

instance (name : String) : Decidable (Readable name) :=
  inferInstanceAs (Decidable (_ ∧ _ ∧ _))

/-- A text that does not go on with a name character. -/
def EndsName (after : String) : Prop :=
  ∀ c rest, after.toList = c :: rest → isNameChar c = false

theorem endsName_iff (after : String) :
    EndsName after ↔ after.toList.takeWhile isNameChar = [] := by
  rw [EndsName]
  rcases after.toList with - | ⟨c, rest⟩
  · simp
  · simp [List.takeWhile_cons]

variable {p q run : List Char}

/-! ### What the search finds -/

/-- Three dots hold a run of name characters, or nothing. -/
theorem of_here?_eq_some (h : here? p = some run) :
    run ≠ [] ∧ run ≠ inlineWord ∧ ∀ c ∈ run, isNameChar c = true := by
  obtain ⟨hrun, hword⟩ := Option.filter_eq_some_iff.1 h
  have hne : run ≠ inlineWord := by simpa using hword
  unfold run? at hrun
  split at hrun
  · rename_i rest
    split at hrun
    · cases hrun
    · rename_i hnil
      cases hrun
      refine ⟨hnil, hne, fun c hc => ?_⟩
      exact List.all_eq_true.1 List.all_takeWhile c hc
  · cases hrun

theorem of_mem_all (h : run ∈ all p) :
    run ≠ [] ∧ run ≠ inlineWord ∧ ∀ c ∈ run, isNameChar c = true := by
  induction p with
  | nil => cases h
  | cons c p ih =>
    rcases List.mem_append.1 h with h | h
    · exact of_here?_eq_some (Option.mem_toList.1 h)
    · exact ih h

theorem readable_of_mem_ofText {name text : String} (h : name ∈ ofText text) : Readable name := by
  rw [ofText_eq_all] at h
  obtain ⟨run, hrun, rfl⟩ := List.mem_map.1 h
  obtain ⟨hne, hword, hchars⟩ := of_mem_all hrun
  refine ⟨fun heq => hne ?_, fun heq => hword ?_, ?_⟩
  · simpa using congrArg String.toList heq
  · simpa [inlineWord] using congrArg String.toList heq
  · simpa using hchars

/-! ### Spreads that are put into a text -/

/-- Three dots and a run give the run as far as the text goes on with it. -/
theorem all_dots_append (hne : run ≠ []) (hrun : ∀ c ∈ run, isNameChar c = true) (q : List Char) :
    all (dotChars ++ (run ++ q)) =
      ((some (run ++ q.takeWhile isNameChar)).filter (· != inlineWord)).toList ++ all q := by
  have htake : (run ++ q).takeWhile isNameChar = run ++ q.takeWhile isNameChar :=
    List.takeWhile_append_of_pos hrun
  have hrest : all q = all (q.dropWhile isNameChar) := by
    conv => lhs; rw [← List.takeWhile_append_dropWhile (p := isNameChar) (l := q)]
    refine all_append_of_no_dot _ _ fun c hc => ne_dot_of_isNameChar ?_
    exact List.all_eq_true.1 List.all_takeWhile c hc
  show all ('.' :: '.' :: '.' :: (run ++ q)) = _
  rw [all_of_run (by rw [htake]; exact List.append_ne_nil_of_left_ne_nil hne _), htake,
    List.dropWhile_append_of_pos hrun, hrest]

/-- Before three dots a text may end as it likes. -/
theorem seam_dots (rest : List Char) : Seam (dotChars ++ rest) := by
  rintro c cs heq
  obtain ⟨rfl, rfl⟩ := List.cons.inj heq
  exact ⟨by decide, fun _ => List.prefix_append dotChars rest⟩

/-- The spread of a readable name is found between the spreads of what stands around it. -/
theorem ofText_interpolate {name : String} (h : Readable name) (before : String) {after : String}
    (hafter : EndsName after) :
    ofText (before ++ ("..." ++ name) ++ after) = ofText before ++ name :: ofText after := by
  obtain ⟨hne, hword, hchars⟩ := h
  have hne' : name.toList ≠ [] := fun heq => hne (String.toList_inj.1 heq)
  have hword' : name.toList ≠ inlineWord := fun heq => hword (String.toList_inj.1 heq)
  have htext : (before ++ ("..." ++ name) ++ after).toList =
      before.toList ++ (dotChars ++ (name.toList ++ after.toList)) := by
    simp [String.toList_append, dotChars]
  have hends : after.toList.takeWhile isNameChar = [] := (endsName_iff after).1 hafter
  rw [ofText_eq_all, ofText_eq_all, ofText_eq_all, htext, all_append_of_seam (seam_dots _),
    all_dots_append hne' hchars, hends, List.append_nil, Option.filter_some,
    if_pos (bne_iff_ne.2 hword'), List.map_append]
  simp

@[simp] theorem ofText_empty : ofText "" = [] := by
  rw [ofText_eq_all]
  rfl

/-- A name is read back from its spread just when it is readable. -/
theorem ofText_dots_eq_iff (name : String) : ofText ("..." ++ name) = [name] ↔ Readable name := by
  constructor
  · intro h
    have hmem : name ∈ ofText ("..." ++ name) := by
      rw [h]
      exact List.mem_singleton_self name
    exact readable_of_mem_ofText hmem
  · intro h
    have hends : EndsName "" := by
      intro c rest heq
      cases heq
    have hread := ofText_interpolate h "" hends
    rwa [String.empty_append, String.append_empty, ofText_empty] at hread

/-! ### Declared names -/

theorem readable_iff_of_isName {name : String} (h : isName name = true) :
    Readable name ↔ name ≠ "on" := by
  constructor
  · exact fun h => h.2.1
  · intro hword
    unfold isName at h
    split at h
    · cases h
    · rename_i c rest heq
      obtain ⟨hstart, hrest⟩ := Bool.and_eq_true_iff.1 h
      refine ⟨?_, hword, fun d hd => ?_⟩
      · rintro rfl
        cases heq
      · rw [heq] at hd
        rcases List.mem_cons.1 hd with rfl | hd
        · exact isNameChar_of_isNameStart hstart
        · exact List.all_eq_true.1 hrest d hd

end Spread

namespace Header

/-- What a header declares is a name. -/
theorem isName_of_nameAfterKeyword? {cs name : List Char} (h : nameAfterKeyword? cs = some name) :
    isName (String.ofList name) = true := by
  unfold nameAfterKeyword? at h
  split at h
  · cases h
  · rename_i c rest heq
    split at h
    · rename_i hstart
      split at h
      · cases h
      · split at h
        · cases h
          rw [isName, String.toList_ofList, Bool.and_eq_true]
          exact ⟨hstart, List.all_takeWhile⟩
        · cases h
    · cases h

theorem isName_of_first? {cs name : List Char} (h : first? cs = some name) :
    isName (String.ofList name) = true := by
  induction cs with
  | nil => cases h
  | cons c cs ih =>
    rcases Option.or_eq_some_iff.1 h with hhere | ⟨-, hlater⟩
    · unfold here? at hhere
      split at hhere
      · exact isName_of_nameAfterKeyword? hhere
      · cases hhere
    · exact ih hlater

theorem isName_of_name? {text name : String} (h : name? text = some name) :
    isName name = true := by
  rw [name?_eq_first?] at h
  obtain ⟨chars, hchars, rfl⟩ := Option.map_eq_some_iff.1 h
  exact isName_of_first? hchars

end Header

/-! ### Derived names -/

theorem isNameChar_of_mem_toString {n : Nat} {c : Char} (h : c ∈ (toString n).toList) :
    isNameChar c = true := by
  rw [Nat.toString_eq_repr, Nat.toList_repr] at h
  have hdigit : c.isDigit = true := Nat.isDigit_of_mem_toDigits (by decide) (by decide) h
  simp [isNameChar, Char.isAlphanum, hdigit]

/-- What a name is derived from decides whether it is readable: neither the word before it nor
a number behind it is in the way. -/
theorem readable_derived_iff {name typeName : String}
    (h : name = derivedName typeName ∨ ∃ k, name = numbered (derivedName typeName) k) :
    Spread.Readable name ↔ ∀ c ∈ typeName.toList, isNameChar c = true := by
  -- either way the name is the word, the type and digits
  obtain ⟨digits, hdigits, hname⟩ : ∃ digits : List Char, (∀ c ∈ digits, isNameChar c = true) ∧
      name.toList = "Fragment".toList ++ (typeName.toList ++ digits) := by
    rcases h with rfl | ⟨k, rfl⟩
    · refine ⟨[], by simp, ?_⟩
      rw [derivedName, String.toList_append, List.append_nil]
    · refine ⟨(toString k).toList, fun c hc => isNameChar_of_mem_toString hc, ?_⟩
      rw [numbered, derivedName, String.toList_append, String.toList_append, List.append_assoc]
  have hword : ∀ c ∈ "Fragment".toList, isNameChar c = true := List.all_eq_true.1 (by decide)
  constructor
  · rintro ⟨-, -, hchars⟩ c hc
    apply hchars c
    rw [hname]
    exact List.mem_append_right _ (List.mem_append_left _ hc)
  · intro htype
    refine ⟨?_, ?_, fun c hc => ?_⟩
    · rintro rfl
      cases hname
    · rintro rfl
      cases hname
    · rw [hname] at hc
      rcases List.mem_append.1 hc with hc | hc
      · exact hword c hc
      · rcases List.mem_append.1 hc with hc | hc
        · exact htype c hc
        · exact hdigits c hc

end FragmentAssembly
