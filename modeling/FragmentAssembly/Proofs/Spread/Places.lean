/-
FragmentAssembly/Proofs/Spread/Places.lean

The places of spreads.  A spread stands at a position if three dots stand there and directly
after them a run of name characters, read as far as it goes (`StandsAt`).  Every position is
judged on its own, whatever stands at the others; the dots of one place may be among those of a
longer run of dots, and the name of one place may end where the dots of the next begin.

The search goes through a text in leaps and looks at few positions.  All the same it finds the
names of all places, from left to right, each as often as it has a place
(`ofText_finds_every_place`).  That the leaps pass over no place is `ofText_eq_all`; what is left
is to tell the places by their positions (`mem_placesFrom_iff`).
-/
import FragmentAssembly.Proofs.Spread.Readable
import Mathlib.Logic.ExistsUnique

namespace FragmentAssembly.Spread

open Text

variable {cs name : List Char} {pos place : Nat}

/-- At a position of the characters stand three dots, and directly after them a run of name
characters that is not empty and goes on as far as it can. -/
structure StandsAt (cs : List Char) (pos : Nat) (name : List Char) : Prop where
  dots : ∀ k < 3, cs[pos + k]? = some '.'
  nonempty : name ≠ []
  reads : ∀ k (h : k < name.length), cs[pos + 3 + k]? = some name[k]
  nameChars : ∀ c ∈ name, isNameChar c = true
  maximal : ∀ c, cs[pos + 3 + name.length]? = some c → isNameChar c = false

/-- Three dots and then a name character, whatever comes after it. -/
structure OpensAt (cs : List Char) (pos : Nat) : Prop where
  dots : ∀ k < 3, cs[pos + k]? = some '.'
  nameChar : ∃ c, cs[pos + 3]? = some c ∧ isNameChar c = true

/-- What follows three dots. -/
theorem exists_drop_eq_dots_append (h : ∀ k < 3, cs[pos + k]? = some '.') :
    ∃ rest, cs.drop pos = '.' :: '.' :: '.' :: rest ∧ ∀ k, cs[pos + 3 + k]? = rest[k]? := by
  have hdots : ∀ k < 3, (cs.drop pos)[k]? = some '.' := fun k hk => by
    rw [List.getElem?_drop]
    exact h k hk
  rcases hdrop : cs.drop pos with - | ⟨a, - | ⟨b, - | ⟨c, rest⟩⟩⟩
  all_goals rw [hdrop] at hdots
  · simpa using hdots 0 (by decide)
  · simpa using hdots 1 (by decide)
  · simpa using hdots 2 (by decide)
  · obtain rfl : a = '.' := by simpa using hdots 0 (by decide)
    obtain rfl : b = '.' := by simpa using hdots 1 (by decide)
    obtain rfl : c = '.' := by simpa using hdots 2 (by decide)
    refine ⟨rest, rfl, fun k => ?_⟩
    rw [Nat.add_assoc, ← List.getElem?_drop, hdrop, Nat.add_comm]
    rfl

/-- The run at a place is what is read up to the first character that is none of a name. -/
theorem StandsAt.takeWhile_eq (h : StandsAt cs pos name) {rest : List Char}
    (hrest : ∀ k, cs[pos + 3 + k]? = rest[k]?) : rest.takeWhile isNameChar = name := by
  have hprefix : name <+: rest := by
    rw [List.prefix_iff_getElem?]
    intro k hk
    rw [← hrest]
    exact h.reads k hk
  obtain ⟨after, rfl⟩ := hprefix
  refine takeWhile_run_append h.nameChars ?_
  rcases after with - | ⟨c, more⟩
  · rfl
  · refine h.maximal c ?_
    rw [hrest, List.getElem?_append_right (Nat.le_refl _), Nat.sub_self]
    rfl

theorem standsAt_of_takeWhile {rest : List Char} (hdots : ∀ k < 3, cs[pos + k]? = some '.')
    (hrest : ∀ k, cs[pos + 3 + k]? = rest[k]?) (hrun : rest.takeWhile isNameChar ≠ []) :
    StandsAt cs pos (rest.takeWhile isNameChar) := by
  have hprefix : rest.takeWhile isNameChar <+: rest := List.takeWhile_prefix _
  refine ⟨hdots, hrun, fun k hk => ?_, fun c hc => ?_, fun c hc => ?_⟩
  · rw [hrest]
    exact List.prefix_iff_getElem?.1 hprefix k hk
  · exact List.all_eq_true.1 List.all_takeWhile c hc
  · -- the character after the run is the first of those that are dropped
    have hnot := List.head?_dropWhile_not isNameChar rest
    have hhead : (rest.dropWhile isNameChar).head? = some c :=
      calc (rest.dropWhile isNameChar).head?
        _ = (rest.takeWhile isNameChar ++ rest.dropWhile isNameChar)[
              (rest.takeWhile isNameChar).length]? := by
            rw [List.getElem?_append_right (Nat.le_refl _), Nat.sub_self, List.head?_eq_getElem?]
        _ = rest[(rest.takeWhile isNameChar).length]? := by rw [List.takeWhile_append_dropWhile]
        _ = some c := by rw [← hrest, hc]
    rw [hhead] at hnot
    exact hnot

/-- A spread is read from the characters behind a position just when one stands there. -/
theorem here?_drop_eq_some_iff :
    here? (cs.drop pos) = some name ↔ StandsAt cs pos name ∧ name ≠ inlineWord := by
  constructor
  · intro h
    have hdots : ∀ k < 3, cs[pos + k]? = some '.' := by
      intro k hk
      rw [← List.getElem?_drop]
      cases hp : dotChars.isPrefixOf (cs.drop pos) with
      | false =>
        rw [here?_eq_none_of_not_isPrefix hp] at h
        cases h
      | true =>
        have hprefix := List.isPrefixOf_iff_prefix.1 hp
        rw [List.prefix_iff_getElem?.1 hprefix k hk]
        obtain rfl | rfl | rfl : k = 0 ∨ k = 1 ∨ k = 2 := by omega
        all_goals rfl
    obtain ⟨rest, hdrop, hrest⟩ := exists_drop_eq_dots_append hdots
    rw [hdrop] at h
    by_cases hrun : rest.takeWhile isNameChar = []
    · rw [here?_of_empty_run hrun] at h
      cases h
    · rw [here?_of_run hrun, Option.filter_eq_some_iff] at h
      obtain ⟨heq, hword⟩ := h
      cases heq
      exact ⟨standsAt_of_takeWhile hdots hrest hrun, by simpa using hword⟩
  · rintro ⟨h, hword⟩
    obtain ⟨rest, hdrop, hrest⟩ := exists_drop_eq_dots_append h.dots
    have htake := h.takeWhile_eq hrest
    rw [hdrop, here?_of_run (by rw [htake]; exact h.nonempty), htake, Option.filter_some,
      if_pos (bne_iff_ne.2 hword)]

/-- Where three dots and a name character stand, there is one name to be read. -/
theorem existsUnique_standsAt_iff : (∃! name, StandsAt cs pos name) ↔ OpensAt cs pos := by
  constructor
  · rintro ⟨name, h, -⟩
    have hpos : 0 < name.length := List.length_pos_iff.2 h.nonempty
    exact ⟨h.dots, name[0], h.reads 0 hpos, h.nameChars _ (List.getElem_mem hpos)⟩
  · rintro ⟨hdots, c, hc, hname⟩
    obtain ⟨rest, -, hrest⟩ := exists_drop_eq_dots_append hdots
    have hrun : rest.takeWhile isNameChar ≠ [] := by
      rcases rest with - | ⟨d, rest⟩
      · rw [← Nat.add_zero (pos + 3), hrest] at hc
        cases hc
      · rw [← Nat.add_zero (pos + 3), hrest] at hc
        obtain rfl : d = c := Option.some.inj hc
        rw [List.takeWhile_cons_of_pos hname]
        exact List.cons_ne_nil _ _
    exact ⟨_, standsAt_of_takeWhile hdots hrest hrun, fun other h => (h.takeWhile_eq hrest).symm⟩

/-! ### Places in their order -/

/-- The names of the spreads, each with its place, where the characters begin at a position. -/
def placesFrom (pos : Nat) : List Char → List (Nat × List Char)
  | [] => []
  | c :: cs => ((here? (c :: cs)).map (pos, ·)).toList ++ placesFrom (pos + 1) cs

theorem map_snd_placesFrom (pos : Nat) (cs : List Char) :
    (placesFrom pos cs).map Prod.snd = all cs := by
  induction cs generalizing pos with
  | nil => rfl
  | cons c cs ih =>
    rw [placesFrom, List.map_append, ih, all_cons]
    cases here? (c :: cs) <;> rfl

theorem mem_placesFrom_iff :
    (place, name) ∈ placesFrom pos cs ↔ ∃ k, place = pos + k ∧ here? (cs.drop k) = some name := by
  induction cs generalizing pos with
  | nil =>
    simp [placesFrom, here?, run?]
  | cons c cs ih =>
    rw [placesFrom, List.mem_append, ih, Option.mem_toList, Option.map_eq_some_iff]
    constructor
    · rintro (⟨run, hrun, heq⟩ | ⟨k, rfl, hk⟩)
      · cases heq
        exact ⟨0, rfl, hrun⟩
      · exact ⟨k + 1, by omega, hk⟩
    · rintro ⟨k, rfl, hk⟩
      cases k with
      | zero => exact .inl ⟨name, hk, rfl⟩
      | succ k => exact .inr ⟨k, by omega, hk⟩

theorem pairwise_placesFrom (pos : Nat) (cs : List Char) :
    (placesFrom pos cs).Pairwise fun p q => p.1 < q.1 := by
  induction cs generalizing pos with
  | nil => exact List.Pairwise.nil
  | cons c cs ih =>
    rw [placesFrom, List.pairwise_append]
    refine ⟨?_, ih (pos + 1), ?_⟩
    · cases here? (c :: cs) with
      | none => exact List.Pairwise.nil
      | some run => exact List.pairwise_singleton _ _
    · -- what stands further on has a greater position
      rintro p hp ⟨place, name⟩ hq
      obtain ⟨run, -, rfl⟩ := Option.map_eq_some_iff.1 (Option.mem_toList.1 hp)
      obtain ⟨k, rfl, -⟩ := mem_placesFrom_iff.1 hq
      show pos < pos + 1 + k
      omega

/-! ### Every place is found -/

/-- The search gives the names of the places where a spread stands, in the order of their
positions: every place once, and no other one, with the word of an inline fragment left out.
There is such a place wherever three dots are followed by a name character, and the name that
stands there is the longest one. -/
theorem ofText_finds_every_place (text : String) :
    (∃ places : List (Nat × List Char),
      ofText text = places.map (fun p => String.ofList p.2) ∧
        places.Pairwise (fun p q => p.1 < q.1) ∧
        ∀ pos name, (pos, name) ∈ places ↔
          StandsAt text.toList pos name ∧ name ≠ inlineWord) ∧
      ∀ pos, (∃! name, StandsAt text.toList pos name) ↔ OpensAt text.toList pos := by
  refine ⟨⟨placesFrom 0 text.toList, ?_, pairwise_placesFrom 0 _, fun pos name => ?_⟩,
    fun pos => existsUnique_standsAt_iff⟩
  · rw [ofText_eq_all, ← map_snd_placesFrom 0, List.map_map]
    rfl
  · rw [mem_placesFrom_iff, ← here?_drop_eq_some_iff]
    simp

/-- Dots beyond the third one, names that end at dots, and a name that only begins with the word
of an inline fragment. -/
example : ofText "....A...b...on ...only....." = ["A", "b", "only"] := by
  rw [ofText_eq_all]
  decide

end FragmentAssembly.Spread
