/-
FragmentAssembly/Proofs/Spread/Characters.lean

The search for spreads, over characters.  Its rounds are those of `FragmentAssembly.Spread.Search`,
with places for positions: find the next three dots, read the run of name characters behind them,
go on behind the run or one place behind the first dot (`Chars.rounds`, `Chars.names`).

Bytes that spell characters are searched in the same rounds, each at the positions of its places
(`rounds_map`).  A round reads dots and name characters only, which are one byte each, so inside a
round positions go on as places do (`position_dotsAt_add`).  Between two rounds anything may stand,
and there `Spells` carries the search on.
-/
import FragmentAssembly.Proofs.Text.Characters
import FragmentAssembly.Spread.Lemmas
import Mathlib.Data.List.Basic

namespace FragmentAssembly.Spread

open Text

/-- The round with the position of each of its places. -/
def Round.map (position : Nat → Nat) (r : Round) : Round :=
  ⟨position r.dotsAt, position r.nameStop⟩

/-! ### The search, over characters -/

namespace Chars

variable {cs : List Char} {place : Nat} {r : Round}

/-- The next round from a place on, if there are three dots left. -/
def next? (cs : List Char) (place : Nat) : Option Round :=
  (Chars.find? dotChars cs place).map fun found =>
    ⟨found, Chars.runEnd isNameChar cs (found + dotChars.length)⟩

/-- The name that the round read, unless the run is empty or opens an inline fragment. -/
def name? (cs : List Char) (r : Round) : Option (List Char) :=
  if r.nameStop = r.nameStart then none
  else (some (Chars.slice cs r.nameStart r.nameStop)).filter (· != inlineWord)

/-- A round looks only at places inside the text. -/
theorem bounds_of_next? (h : next? cs place = some r) :
    place ≤ r.dotsAt ∧ r.dotsAt < cs.length ∧ r.nameStart ≤ r.nameStop := by
  obtain ⟨found, hfound, rfl⟩ := Option.map_eq_some_iff.1 h
  obtain ⟨hle, hlt, -⟩ := Chars.of_find?_eq_some hfound
  exact ⟨hle, hlt, Chars.le_runEnd _ _ _⟩

theorem lt_resume (h : next? cs place = some r) : place < r.resume := by
  obtain ⟨hplace, -, hstart⟩ := bounds_of_next? h
  have hdots : r.nameStart = r.dotsAt + 3 := rfl
  unfold Round.resume
  split <;> omega

/-- The rounds of the search from a place on. -/
def rounds (cs : List Char) (place : Nat) : List Round :=
  match _h : next? cs place with
  | none => []
  | some r => r :: rounds cs r.resume
termination_by cs.length - place
decreasing_by
  have hb := bounds_of_next? _h
  have hl := lt_resume _h
  omega

/-- The names of the spreads in the characters. -/
def names (cs : List Char) : List (List Char) :=
  (rounds cs 0).filterMap (name? cs)

/-- Every round is the next one from somewhere. -/
theorem exists_next?_of_mem_rounds (h : r ∈ rounds cs place) : ∃ start, next? cs start = some r := by
  fun_induction rounds cs place with
  | case1 => cases h
  | case2 place first hfirst ih =>
    obtain rfl | h := List.mem_cons.1 h
    · exact ⟨place, hfirst⟩
    · exact ih h

/-- What a round reads: three dots, and the run of name characters behind them. -/
theorem exists_run_of_next? (h : next? cs place = some r) :
    ∃ run rest, cs.drop r.dotsAt = (dotChars ++ run) ++ rest ∧
      (∀ c ∈ run, isNameChar c = true) ∧ r.nameStop = r.dotsAt + (dotChars ++ run).length := by
  obtain ⟨found, hfound, rfl⟩ := Option.map_eq_some_iff.1 h
  obtain ⟨rest, hdots, hrest⟩ := Chars.exists_drop_eq_of_find? hfound
  refine ⟨rest.takeWhile isNameChar, rest.dropWhile isNameChar, ?_, fun c hc => ?_, ?_⟩
  · rw [List.append_assoc, List.takeWhile_append_dropWhile]
    exact hdots
  · exact List.all_eq_true.1 List.all_takeWhile c hc
  · show Chars.runEnd isNameChar cs (found + dotChars.length) = _
    rw [Chars.runEnd, hrest, List.length_append, Nat.add_assoc]

end Chars

/-! ### The same rounds in bytes -/

section Spelled

variable {bytes : ByteArray} {cs : List Char} {position : Nat → Nat} {place : Nat} {r : Round}

/-- Inside a round positions go on as places do. -/
theorem position_dotsAt_add (h : Spells bytes cs position) (hnext : Chars.next? cs place = some r)
    {n : Nat} (hn : r.dotsAt + n ≤ r.nameStop) :
    position (r.dotsAt + n) = position r.dotsAt + n := by
  obtain ⟨run, rest, hdrop, hrun, hstop⟩ := Chars.exists_run_of_next? hnext
  have hascii : ∀ c ∈ (dotChars ++ run).take n, c.toNat < 128 := by
    intro c hc
    obtain hc | hc := List.mem_append.1 (List.mem_of_mem_take hc)
    · exact lt_of_mem_dotChars c hc
    · exact lt_of_isNameChar (hrun c hc)
  have hlength : ((dotChars ++ run).take n).length = n := by
    rw [List.length_take]
    omega
  rw [← List.take_append_drop n (dotChars ++ run), List.append_assoc] at hdrop
  have hadd := h.position_add hdrop hascii
  rwa [hlength] at hadd

theorem nameStart_map (h : Spells bytes cs position) (hnext : Chars.next? cs place = some r) :
    (r.map position).nameStart = position r.nameStart :=
  (position_dotsAt_add h hnext (Chars.bounds_of_next? hnext).2.2).symm

/-- The run of a round is as long in positions as it is in places. -/
theorem nameStop_map (h : Spells bytes cs position) (hnext : Chars.next? cs place = some r) :
    (r.map position).nameStop = (r.map position).nameStart + (r.nameStop - r.nameStart) := by
  have hle := (Chars.bounds_of_next? hnext).2.2
  have hdots : r.nameStart = r.dotsAt + 3 := rfl
  have hmapped : (r.map position).nameStart = position r.dotsAt + 3 := rfl
  have hstop := position_dotsAt_add h hnext (n := r.nameStop - r.dotsAt) (by omega)
  rw [Nat.add_sub_cancel' (by omega)] at hstop
  show position r.nameStop = _
  omega

/-- The search goes on at the position of the place where it goes on. -/
theorem resume_map (h : Spells bytes cs position) (hnext : Chars.next? cs place = some r) :
    (r.map position).resume = position r.resume := by
  have hle := (Chars.bounds_of_next? hnext).2.2
  have hdots : r.nameStart = r.dotsAt + 3 := rfl
  have hrun := nameStop_map h hnext
  by_cases hempty : r.nameStop = r.nameStart
  · -- one byte behind the first dot is one character behind it
    rw [Round.resume, Round.resume, if_pos (by omega), if_pos hempty]
    exact (position_dotsAt_add h hnext (by omega)).symm
  · rw [Round.resume, Round.resume, if_neg (by omega), if_neg hempty]
    rfl

/-- One round: the next one from a position is the next one from its place. -/
theorem next?_map (h : Spells bytes cs position) (place : Nat) :
    Round.next? bytes (position place) = (Chars.next? cs place).map (Round.map position) := by
  rw [Round.next?, dots, h.find?_eq lt_of_mem_dotChars (by decide), Chars.next?]
  rcases hfound : Chars.find? dotChars cs place with - | found
  · rfl
  · -- the run is read from behind the dots, and these are one byte each
    obtain ⟨rest, hdrop, -⟩ := Chars.exists_drop_eq_of_find? hfound
    have hname := h.position_add hdrop lt_of_mem_dotChars
    have hstop := h.runEnd_eq reads_isNameByte (found + dotChars.length)
    simp only [Option.map_some, Option.some.injEq, Round.map, Round.mk.injEq, true_and]
    rw [← hstop, hname, List.length_map]

/-- All rounds: those of the bytes are those of the characters, at their positions. -/
theorem rounds_map (h : Spells bytes cs position) (place : Nat) :
    rounds bytes (position place) = (Chars.rounds cs place).map (Round.map position) := by
  fun_induction Chars.rounds cs place with
  | case1 place hnone =>
    refine rounds_of_none ?_
    rw [next?_map h, hnone]
    rfl
  | case2 place r hnext ih =>
    have hmapped : Round.next? bytes (position place) = some (r.map position) := by
      rw [next?_map h, hnext]
      rfl
    rw [rounds_of_some hmapped, resume_map h hnext, ih, List.map_cons]

end Spelled

/-- The dots behind the first character stand at place 1, and at position 2. -/
example : rounds "é...a".toUTF8 0 = [⟨2, 6⟩] := by
  rw [← border_zero "é...a", rounds_map (spells_border "é...a")]
  cbv

/-! ### The rounds of a text -/

theorem name?_border {text : String} {place : Nat} {r : Round}
    (hnext : Chars.next? text.toList place = some r) :
    Round.name? text.toUTF8 (r.map (border text)) =
      (Chars.name? text.toList r).map String.ofList := by
  have h := spells_border text
  have hle := (Chars.bounds_of_next? hnext).2.2
  have hrun := nameStop_map h hnext
  by_cases hempty : r.nameStop = r.nameStart
  · rw [Round.name?, Chars.name?, if_pos (by omega), if_pos hempty]
    rfl
  · rw [Round.name?, Chars.name?, if_neg (by omega), if_neg hempty, nameStart_map h hnext]
    show (slice? text.toUTF8 (border text r.nameStart) (border text r.nameStop)).filter _ = _
    rw [slice?_border text hle, Option.filter_some, Option.filter_some, ofList_bne_inlineWord]
    split <;> rfl

/-- The search of the bytes finds the names that the search of the characters finds. -/
theorem ofText_eq_names (text : String) :
    ofText text = (Chars.names text.toList).map String.ofList := by
  have hrounds := rounds_map (spells_border text) 0
  rw [border_zero] at hrounds
  rw [ofText, hrounds, Chars.names, List.filterMap_map, List.map_filterMap]
  refine List.filterMap_congr fun r hr => ?_
  obtain ⟨place, hnext⟩ := Chars.exists_next?_of_mem_rounds hr
  exact name?_border hnext

end FragmentAssembly.Spread
