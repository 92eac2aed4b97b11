/-
FragmentAssembly/Header/Lemmas.lean

The search finds the first header.  `Header.name?` looks only at the places of the
keyword, `Header.first?` at every place of the characters; they give the same name
(`name?_eq_first?`).  Nothing is missed inside the keyword, because its first letter
does not come again in it.
-/
import FragmentAssembly.Header.Search
import FragmentAssembly.Text.Encoded

namespace FragmentAssembly.Header

open Text

theorem lt_of_mem_keyword : ∀ c ∈ keyword, c.toNat < 128 := by
  simp [keyword]

/-- No blank belongs to a name, so a name begins where the blanks in front of it end. -/
theorem isAsciiBlank_of_isNameChar {c : Char} (h : isNameChar c = true) :
    isAsciiBlank c = false := by
  rw [Bool.eq_false_iff]
  intro hblank
  simp only [isAsciiBlank, Bool.or_eq_true, beq_iff_eq] at hblank
  rcases hblank with (((rfl | rfl) | rfl) | rfl) | rfl
  all_goals exact absurd h (by decide)

/-- Without the keyword at the beginning there is no header there. -/
theorem here?_of_not_isPrefix {cs : List Char} (h : keyword.isPrefixOf cs = false) :
    here? cs = none := by
  rw [here?, if_neg (by rw [h]; exact Bool.false_ne_true)]

/-- Behind the keyword a header is what follows it. -/
theorem here?_keyword_append (rest : List Char) :
    here? (keyword ++ rest) = nameAfterKeyword? rest := by
  rw [here?, if_pos (List.isPrefixOf_iff_prefix.2 (List.prefix_append _ _)), List.drop_left]

/-- Behind the keyword the reading goes on after it: no header begins inside it. -/
theorem first?_keyword_append (rest : List Char) :
    first? (keyword ++ rest) = (nameAfterKeyword? rest).or (first? rest) := by
  rw [← here?_keyword_append]
  rfl

/-! ### The search from border to border -/

/-- The text of a span. -/
def text? (bytes : ByteArray) (span : Span) : Option String :=
  slice? bytes span.start span.stop

/-- What the search reads behind a keyword is what stands there. -/
theorem text?_spanAfter? {bytes : ByteArray} {pos : Nat} {cs : List Char} (h : Before bytes pos cs) :
    (spanAfter? bytes pos).bind (text? bytes) = (nameAfterKeyword? cs).map String.ofList ∧
      ((spanAfter? bytes pos).isSome = (nameAfterKeyword? cs).isSome) := by
  obtain ⟨hblank, hstart⟩ := runEnd_of_before reads_isBlankByte h
  unfold spanAfter? nameAfterKeyword?
  rw [hblank]
  simp only [byteAt_of_before reads_isNameStartByte hstart]
  cases hrest : cs.dropWhile isAsciiBlank with
  | nil => simp
  | cons c rest =>
    rw [hrest] at hstart
    by_cases hc : isNameStart c = true
    · have hlt := lt_of_isNameStart hc
      have hnext := (show Before _ _ ([c] ++ rest) from hstart).skipAscii (by simpa using hlt)
      obtain ⟨hrun, hstop⟩ := runEnd_of_before reads_isNameByte hnext
      rw [List.length_singleton] at hrun hstop
      simp only [List.head?_cons, Option.any_some, hc, if_true, hrun,
        byteAt_of_before reads_isBlankByte hstop]
      cases hafter : rest.dropWhile isNameChar with
      | nil => simp
      | cons b after =>
        by_cases hb : isAsciiBlank b = true
        · have hascii : ∀ d ∈ c :: rest.takeWhile isNameChar, d.toNat < 128 := by
            intro d hd
            rcases List.mem_cons.1 hd with rfl | hd
            · exact hlt
            · exact lt_of_isNameChar (List.all_eq_true.1 List.all_takeWhile d hd)
          rw [← List.takeWhile_append_dropWhile (p := isNameChar) (l := rest),
            ← List.cons_append] at hstart
          have hslice := slice?_of_ascii hascii hstart
          rw [List.length_cons, Nat.add_comm _ 1, ← Nat.add_assoc] at hslice
          simp [hb, text?, hslice]
        · simp [hb]
    · simp [hc]

theorem span?_congr {bytes : ByteArray} {pos pos' : Nat}
    (h : find? keywordBytes bytes pos = find? keywordBytes bytes pos') :
    span? bytes pos = span? bytes pos' := by
  rw [span?, span?]
  split <;> split <;> simp_all

/-- From every border on, the search finds the first header of the characters to come. -/
theorem text?_span? {bytes : ByteArray} {pos : Nat} {cs : List Char} (h : Before bytes pos cs) :
    (span? bytes pos).bind (text? bytes) = (first? cs).map String.ofList := by
  induction hn : cs.length using Nat.strongRecOn generalizing pos cs with
  | _ n ih =>
  subst hn
  cases cs with
  | nil =>
    have hfind : find? keywordBytes bytes pos = none := find?_of_nil h
    rw [span?_of_none hfind]
    rfl
  | cons c cs =>
    cases hp : keyword.isPrefixOf (c :: cs) with
    | false =>
      have hfind := find?_of_not_isPrefix lt_of_mem_keyword (List.cons_ne_nil _ _) h hp
      rw [span?_congr hfind, ih cs.length (by simp) h.skip rfl, first?,
        here?_of_not_isPrefix hp, Option.none_or]
    | true =>
      have hfind : find? keywordBytes bytes pos = some pos :=
        find?_of_isPrefix lt_of_mem_keyword (List.cons_ne_nil _ _) h hp
      obtain ⟨rest, heq⟩ := List.isPrefixOf_iff_prefix.1 hp
      rw [← heq] at h ⊢
      have hlen : (c :: cs).length = rest.length + 8 := by
        rw [← heq, List.length_append, Nat.add_comm]
        rfl
      have hafter : Before bytes (pos + keywordBytes.length) rest := h.skipAscii lt_of_mem_keyword
      obtain ⟨htext, hsome⟩ := text?_spanAfter? hafter
      have hrest := ih rest.length (by omega) hafter rfl
      rw [span?_of_some hfind, first?_keyword_append]
      cases hs : spanAfter? bytes (pos + keywordBytes.length) with
      | none =>
        rw [hs] at hsome
        have hnone : nameAfterKeyword? rest = none := by
          simpa using hsome.symm
        rw [hnone, Option.none_or, Option.none_or]
        exact hrest
      | some span =>
        rw [hs] at hsome htext
        obtain ⟨name, hname⟩ := Option.isSome_iff_exists.1 hsome.symm
        rw [hname, Option.some_or, Option.some_or, ← hname]
        exact htext

/-- The search and the reading of every place give the same name. -/
theorem name?_eq_first? (text : String) :
    name? text = (first? text.toList).map String.ofList :=
  text?_span? (before_toUTF8 text)

/-- Whether a text is a whole definition, read off its characters. -/
theorem leads_eq (text : String) :
    leads text =
      (keyword.isPrefixOf (text.toList.dropWhile isBlank) && (first? text.toList).isSome) := by
  rw [leads, name?_eq_first?, trimStart, String.toList_ofList, Option.isSome_map]

/-- A text that declares no name is not a whole definition. -/
theorem leads_of_first? {text : String} (h : first? text.toList = none) : leads text = false := by
  rw [leads_eq, h]
  exact Bool.and_false _

/-- A whole definition declares a name. -/
theorem exists_name?_of_leads {text : String} (h : leads text = true) :
    ∃ declared, name? text = some declared := by
  rw [leads, Bool.and_eq_true] at h
  exact Option.isSome_iff_exists.1 h.2

end FragmentAssembly.Header
