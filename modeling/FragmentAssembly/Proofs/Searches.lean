/-
FragmentAssembly/Proofs/Searches.lean

The two searches of a text, for spreads and for a header, go over its bytes.  They cut the bytes at
positions that they have counted, and they cut names out of the text between such positions
(`CutsAt`, `Takes`).  A position beyond the end, or a cut inside a character, would be an error;
neither comes up in any text, and what is found is what the same searches find when they go over
the characters (`searches_cut_between_characters`).

That positions stay inside, and that the search for spreads gets on, holds for bytes of any kind.
That names are cut between characters is where the encoding is needed: the positions are borders
because the search over characters stands at their places (`spells_border`).
-/
import FragmentAssembly.Proofs.Header.Characters
import FragmentAssembly.Proofs.Spread.Characters

namespace FragmentAssembly

open Text

/-! ### The search for spreads -/

namespace Spread

/-- Where the search begins to look for dots, as often as it does. -/
def starts (bytes : ByteArray) : List Nat :=
  0 :: (rounds bytes 0).map Round.resume

/-- The positions from which the search takes the bytes up to their end: to look for dots, and to
read the name behind them. -/
inductive CutsAt (bytes : ByteArray) : Nat → Prop
  | look {pos} (h : pos ∈ starts bytes) : CutsAt bytes pos
  | read {r} (h : r ∈ rounds bytes 0) : CutsAt bytes r.nameStart

/-- The first position of a part that the search takes out of the text, and the position after its
last. -/
inductive Takes (bytes : ByteArray) : Nat → Nat → Prop
  | name {r} (h : r ∈ rounds bytes 0) (hrun : r.nameStop ≠ r.nameStart) :
      Takes bytes r.nameStart r.nameStop

variable {bytes : ByteArray} {pos : Nat} {r : Round}

/-- Every round from a position on goes on behind it, and stays inside the bytes. -/
theorem bounds_of_mem_rounds (h : r ∈ rounds bytes pos) :
    pos < r.resume ∧ r.nameStart ≤ r.nameStop ∧ r.nameStop ≤ bytes.size := by
  fun_induction rounds bytes pos with
  | case1 => cases h
  | case2 pos first hfirst ih =>
    have hlt := Round.lt_resume hfirst
    obtain rfl | h := List.mem_cons.1 h
    · exact ⟨hlt, (Round.bounds_of_next? hfirst).2⟩
    · obtain ⟨hlater, hbounds⟩ := ih h
      exact ⟨Nat.lt_trans hlt hlater, hbounds⟩

theorem pairwise_rounds (bytes : ByteArray) (pos : Nat) :
    (rounds bytes pos).Pairwise fun earlier later => earlier.resume < later.resume := by
  fun_induction rounds bytes pos with
  | case1 => exact List.Pairwise.nil
  | case2 pos first _ ih =>
    exact List.pairwise_cons.2 ⟨fun later hlater => (bounds_of_mem_rounds hlater).1, ih⟩

/-- Each time the search looks for dots further on than before. -/
theorem pairwise_starts (bytes : ByteArray) : (starts bytes).Pairwise (· < ·) := by
  refine List.pairwise_cons.2 ⟨fun pos hpos => ?_, List.pairwise_map.2 (pairwise_rounds bytes 0)⟩
  obtain ⟨r, hr, rfl⟩ := List.mem_map.1 hpos
  exact (bounds_of_mem_rounds hr).1

theorem CutsAt.le_size (h : CutsAt bytes pos) : pos ≤ bytes.size := by
  cases h with
  | look h =>
    obtain rfl | h := List.mem_cons.1 h
    · exact Nat.zero_le _
    · obtain ⟨r, hr, rfl⟩ := List.mem_map.1 h
      obtain ⟨-, hrun, hstop⟩ := bounds_of_mem_rounds hr
      have hdots : r.nameStart = r.dotsAt + 3 := rfl
      unfold Round.resume
      split <;> omega
  | read h =>
    obtain ⟨-, hrun, hstop⟩ := bounds_of_mem_rounds h
    exact Nat.le_trans hrun hstop

/-- What is taken out of a text lies between two of its borders. -/
theorem Takes.exists_border {text : String} {start stop : Nat}
    (h : Takes text.toUTF8 start stop) :
    ∃ first last, first ≤ last ∧ start = border text first ∧ stop = border text last := by
  have hspells := spells_border text
  have hrounds := rounds_map hspells 0
  rw [hspells.position_zero] at hrounds
  cases h with
  | name h hrun =>
    rw [hrounds] at h
    obtain ⟨r, hr, rfl⟩ := List.mem_map.1 h
    obtain ⟨place, hnext⟩ := Chars.exists_next?_of_mem_rounds hr
    exact ⟨r.nameStart, r.nameStop, (Chars.bounds_of_next? hnext).2.2, nameStart_map hspells hnext,
      rfl⟩

end Spread

/-! ### The search for a header -/

namespace Header

/-- The positions from which the search takes the bytes up to their end: to look for the keyword,
and to read a name that begins behind one. -/
inductive CutsAt (bytes : ByteArray) : Nat → Prop
  | start : CutsAt bytes 0
  | look {pos} (h : pos ∈ keywordEnds bytes 0) : CutsAt bytes pos
  | read {pos} (h : pos ∈ keywordEnds bytes 0)
      (hname : byteAt isNameStartByte bytes (runEnd isBlankByte bytes pos) = true) :
      CutsAt bytes (runEnd isBlankByte bytes pos + 1)

/-- The first position of a name that stands behind a keyword, and the position after its last.
The search takes out the first of these names and no more. -/
inductive Takes (bytes : ByteArray) : Nat → Nat → Prop
  | name {pos span} (h : pos ∈ keywordEnds bytes 0) (hspan : spanAfter? bytes pos = some span) :
      Takes bytes span.start span.stop

variable {bytes : ByteArray} {pos : Nat}

/-- A keyword ends inside the bytes. -/
theorem le_size_of_mem_keywordEnds {stop : Nat} (h : stop ∈ keywordEnds bytes pos) :
    stop ≤ bytes.size := by
  fun_induction keywordEnds bytes pos with
  | case1 => cases h
  | case2 pos found hfound ih =>
    obtain rfl | h := List.mem_cons.1 h
    · exact le_of_wordAt (Nat.le_of_lt (find?_bounds hfound).2) (wordAt_of_find? hfound)
    · exact ih h

theorem CutsAt.le_size (h : CutsAt bytes pos) : pos ≤ bytes.size := by
  cases h with
  | start => exact Nat.zero_le _
  | look h => exact le_size_of_mem_keywordEnds h
  | read _ hname => exact lt_of_byteAt hname

/-- The name behind a keyword of a text lies between two borders of the text. -/
theorem Takes.exists_border {text : String} {start stop : Nat}
    (h : Takes text.toUTF8 start stop) :
    ∃ first last, first ≤ last ∧ start = border text first ∧ stop = border text last := by
  have hspells := spells_border text
  have hends := keywordEnds_map hspells 0
  rw [hspells.position_zero] at hends
  cases h with
  | name h hspan =>
    rw [hends] at h
    obtain ⟨place, -, rfl⟩ := List.mem_map.1 h
    rw [spanAfter?_map hspells] at hspan
    obtain ⟨span, hplaces, rfl⟩ := Option.map_eq_some_iff.1 hspan
    exact ⟨span.start, span.stop, Nat.le_of_lt (Chars.lt_of_spanAfter? hplaces), rfl, rfl⟩

end Header

/-! ### Both searches -/

/-- Only characters below 128 count as dots, in names, as blanks or in the keyword. -/
theorem lt_of_searched {c : Char}
    (h : c ∈ Spread.dotChars ∨ c ∈ Header.keyword ∨ isNameStart c = true ∨ isNameChar c = true ∨
      isAsciiBlank c = true) : c.toNat < 128 := by
  rcases h with h | h | h | h | h
  · exact Spread.lt_of_mem_dotChars c h
  · exact Header.lt_of_mem_keyword c h
  · exact lt_of_isNameStart h
  · exact lt_of_isNameChar h
  · exact lt_of_isAsciiBlank h

/-- The searches of a text take its bytes only from positions inside it, and they take parts out
of the text only between two borders of characters, so that no part is refused.  The search for
spreads looks further on each time.  Over the bytes, taken one by one, both are the searches over
characters, and over the characters of the text these find the same: the same spreads and the same
declared name.  What they look for are characters below 128. -/
theorem searches_cut_between_characters (text : String) :
    (∀ pos, Spread.CutsAt text.toUTF8 pos ∨ Header.CutsAt text.toUTF8 pos →
      pos ≤ text.toUTF8.size) ∧
    (∀ start stop, Spread.Takes text.toUTF8 start stop ∨ Header.Takes text.toUTF8 start stop →
      start ≤ stop ∧ (⟨start⟩ : String.Pos.Raw).IsValid text ∧
        (⟨stop⟩ : String.Pos.Raw).IsValid text ∧
        ∃ part, slice? text.toUTF8 start stop = some part) ∧
    (Spread.starts text.toUTF8).Pairwise (· < ·) ∧
    (Spread.rounds text.toUTF8 0 = Spread.Chars.rounds (oneByOne text.toUTF8) 0 ∧
      Spread.ofText text = (Spread.Chars.names text.toList).map String.ofList) ∧
    (Header.span? text.toUTF8 0 = Header.Chars.span? (oneByOne text.toUTF8) ∧
      Header.name? text = (Header.Chars.name? text.toList).map String.ofList) ∧
    ∀ c, c ∈ Spread.dotChars ∨ c ∈ Header.keyword ∨ isNameStart c = true ∨ isNameChar c = true ∨
      isAsciiBlank c = true → c.toNat < 128 := by
  have hbytes := spells_oneByOne text.toUTF8
  refine ⟨?_, ?_, Spread.pairwise_starts _, ⟨?_, Spread.ofText_eq_names text⟩,
    ⟨?_, Header.name?_eq_chars text⟩, fun c => lt_of_searched⟩
  · rintro pos (h | h)
    · exact h.le_size
    · exact h.le_size
  · intro start stop h
    obtain ⟨first, last, hle, rfl, rfl⟩ := h.elim (·.exists_border) (·.exists_border)
    refine ⟨?_, isValid_border text first, isValid_border text last, _, slice?_border text hle⟩
    rw [border_eq_add_slice text hle]
    exact Nat.le_add_right _ _
  · have hrounds := Spread.rounds_map hbytes 0
    rwa [show Spread.Round.map id = id from rfl, List.map_id] at hrounds
  · have hspan := Header.span?_map hbytes
    rwa [show Header.Span.map id = id from rfl, Option.map_id] at hspan

end FragmentAssembly
