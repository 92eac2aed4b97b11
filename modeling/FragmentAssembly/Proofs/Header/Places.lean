/-
FragmentAssembly/Proofs/Header/Places.lean

The places of headers.  A header stands at a position of a text if the keyword stands there,
then blanks, which may be missing, then a name that goes on as long as it can, and directly after
it a blank (`StandsAt`).  Every position is judged on its own: the keyword may be part of a longer
word, and the name of one place may hold the keyword of another.

The declared name of a text is the name at the first of these places (`FirstAt`), and a text
declares none only if there is no place at all (`name?_reads_leftmost`).  The search goes from one
keyword to the next behind it and so looks at few positions; that it passes over no header is
`name?_eq_first?`.  What is left is to tell the places by their positions, one position after
another (`first?_eq_some_iff`).
-/
import FragmentAssembly.Proofs.Spread.Readable

namespace FragmentAssembly.Header

open Text

variable {cs blanks name other after : List Char} {pos : Nat}

/-- The characters read as a header of a name: the keyword, ASCII blanks, the name, and what comes
after it.  The name begins as names do, it is the longest run of name characters at its place, and
an ASCII blank ends it. -/
structure ReadsAs (cs blanks name after : List Char) : Prop where
  eq_append : cs = keyword ++ (blanks ++ (name ++ after))
  blanks : ∀ c ∈ blanks, isAsciiBlank c = true
  starts : name.head?.any isNameStart = true
  longest : (name ++ after).takeWhile isNameChar = name
  ends : after.head?.any isAsciiBlank = true

/-- At a position of the characters stands a header of the name. -/
def StandsAt (cs : List Char) (pos : Nat) (name : List Char) : Prop :=
  ∃ blanks after, ReadsAs (cs.drop pos) blanks name after

/-- At a position stands a header, and at no smaller one. -/
structure FirstAt (cs : List Char) (pos : Nat) (name : List Char) : Prop where
  stands : StandsAt cs pos name
  none_before : ∀ earlier < pos, ∀ other, ¬ StandsAt cs earlier other

/-! ### A header at the beginning -/

/-- The blank behind a name ends it, so the name goes on as long as it can. -/
theorem readsAs (hblanks : ∀ c ∈ blanks, isAsciiBlank c = true)
    (hstarts : name.head?.any isNameStart = true) (hname : ∀ c ∈ name, isNameChar c = true)
    {b : Char} (hb : isAsciiBlank b = true) (rest : List Char) :
    ReadsAs (keyword ++ (blanks ++ (name ++ b :: rest))) blanks name (b :: rest) := by
  refine ⟨rfl, hblanks, hstarts, ?_, hb⟩
  refine takeWhile_run_append hname (Bool.eq_false_iff.2 fun hchar => ?_)
  rw [isAsciiBlank_of_isNameChar hchar] at hb
  cases hb

theorem readsAs_of_isName {name : String} (h : isName name = true) (rest : List Char) :
    ReadsAs (keyword ++ ([' '] ++ (name.toList ++ ' ' :: rest))) [' '] name.toList
      (' ' :: rest) := by
  have hblank : ∀ c ∈ [' '], isAsciiBlank c = true := List.forall_mem_singleton.2 rfl
  unfold isName at h
  split at h
  · cases h
  · rename_i c cs heq
    obtain ⟨hstart, hchars⟩ := Bool.and_eq_true_iff.1 h
    have hstarts : (c :: cs).head?.any isNameStart = true := hstart
    rw [heq]
    refine readsAs hblank hstarts (fun d hd => ?_) (by decide) rest
    rcases List.mem_cons.1 hd with rfl | hd
    · exact isNameChar_of_isNameStart hstart
    · exact List.all_eq_true.1 hchars d hd

namespace ReadsAs

theorem exists_blank (h : ReadsAs cs blanks name after) :
    ∃ b rest, after = b :: rest ∧ isAsciiBlank b = true := by
  rcases after with - | ⟨b, rest⟩
  · exact absurd h.ends (by simp)
  · exact ⟨b, rest, rfl, h.ends⟩

theorem exists_start (h : ReadsAs cs blanks name after) :
    ∃ c run, name = c :: run ∧ isNameStart c = true := by
  rcases name with - | ⟨c, run⟩
  · exact absurd h.starts (by simp)
  · exact ⟨c, run, rfl, h.starts⟩

theorem isNameChar (h : ReadsAs cs blanks name after) {c : Char} (hc : c ∈ name) :
    isNameChar c = true := by
  rw [← h.longest] at hc
  exact List.all_eq_true.1 List.all_takeWhile c hc

end ReadsAs

theorem ReadsAs.nameAfterKeyword?_eq (h : ReadsAs cs blanks name after) :
    nameAfterKeyword? (blanks ++ (name ++ after)) = some name := by
  obtain ⟨b, rest, rfl, hb⟩ := h.exists_blank
  obtain ⟨c, run, rfl, hc⟩ := h.exists_start
  have hnot : ¬ isAsciiBlank c = true := by
    rw [isAsciiBlank_of_isNameChar (isNameChar_of_isNameStart hc)]
    exact Bool.false_ne_true
  have htake : (run ++ b :: rest).takeWhile Text.isNameChar = run := by
    have hlongest := h.longest
    rw [List.cons_append,
      List.takeWhile_cons_of_pos (isNameChar_of_isNameStart hc)] at hlongest
    exact (List.cons.inj hlongest).2
  have hdrop : (run ++ b :: rest).dropWhile Text.isNameChar = b :: rest := by
    have hwhole := List.takeWhile_append_dropWhile (p := Text.isNameChar) (l := run ++ b :: rest)
    rw [htake] at hwhole
    exact List.append_cancel_left hwhole
  rw [nameAfterKeyword?, List.dropWhile_append_of_pos h.blanks, List.cons_append,
    List.dropWhile_cons_of_neg hnot]
  simp only [hc, hdrop, htake, hb, if_true]

theorem exists_of_nameAfterKeyword? (h : nameAfterKeyword? cs = some name) :
    ∃ blanks after, ReadsAs (keyword ++ cs) blanks name after := by
  unfold nameAfterKeyword? at h
  split at h
  · cases h
  · rename_i c rest hrest
    split at h
    · rename_i hc
      split at h
      · cases h
      · rename_i b after hafter
        split at h
        · rename_i hb
          cases h
          refine ⟨cs.takeWhile isAsciiBlank, b :: after, ?_, ?_, hc, ?_, hb⟩
          · rw [← hafter, List.cons_append, List.takeWhile_append_dropWhile, ← hrest,
              List.takeWhile_append_dropWhile]
          · exact fun d hd => List.all_eq_true.1 List.all_takeWhile d hd
          · rw [← hafter, List.cons_append, List.takeWhile_append_dropWhile,
              List.takeWhile_cons_of_pos (isNameChar_of_isNameStart hc)]
        · cases h
    · cases h

/-- A header is read at the beginning of the characters just when they read as one. -/
theorem here?_eq_some_iff : here? cs = some name ↔ ∃ blanks after, ReadsAs cs blanks name after := by
  constructor
  · intro h
    unfold here? at h
    split at h
    · rename_i hprefix
      obtain ⟨rest, rfl⟩ := List.isPrefixOf_iff_prefix.1 hprefix
      rw [List.drop_left] at h
      exact exists_of_nameAfterKeyword? h
    · cases h
  · rintro ⟨blanks, after, h⟩
    rw [h.eq_append, here?_keyword_append]
    exact h.nameAfterKeyword?_eq

/-! ### One position after another -/

theorem here?_drop_eq_some_iff : here? (cs.drop pos) = some name ↔ StandsAt cs pos name :=
  here?_eq_some_iff

theorem here?_drop_eq_none_iff : here? (cs.drop pos) = none ↔ ∀ name, ¬ StandsAt cs pos name := by
  simp only [Option.eq_none_iff_forall_ne_some, ne_eq, here?_drop_eq_some_iff]

/-- At one position stands one header at most. -/
theorem StandsAt.unique (h : StandsAt cs pos name) (h' : StandsAt cs pos other) : name = other :=
  Option.some.inj ((here?_drop_eq_some_iff.2 h).symm.trans (here?_drop_eq_some_iff.2 h'))

/-- No header stands before the first one. -/
theorem FirstAt.le {later : Nat} (h : FirstAt cs pos name) (h' : StandsAt cs later other) :
    pos ≤ later :=
  Nat.le_of_not_lt fun hlt => h.none_before later hlt other h'

/-- There is one first header at most. -/
theorem FirstAt.unique {later : Nat} (h : FirstAt cs pos name) (h' : FirstAt cs later other) :
    name = other := by
  obtain rfl := Nat.le_antisymm (h.le h'.stands) (h'.le h.stands)
  exact h.stands.unique h'.stands

theorem here?_drop_nil (pos : Nat) : here? (([] : List Char).drop pos) = none := by
  rw [List.drop_nil]
  rfl

/-- The first header is read at a position with none before it. -/
theorem first?_eq_some_iff_drop :
    first? cs = some name ↔
      ∃ pos, here? (cs.drop pos) = some name ∧ ∀ earlier < pos, here? (cs.drop earlier) = none := by
  induction cs with
  | nil => simp [first?, here?_drop_nil, -List.drop_nil]
  | cons c cs ih =>
    rw [first?, Option.or_eq_some_iff, ih]
    constructor
    · rintro (hhere | ⟨hnone, pos, hpos, hbefore⟩)
      · exact ⟨0, hhere, fun earlier h => absurd h (Nat.not_lt_zero _)⟩
      · refine ⟨pos + 1, hpos, fun earlier h => ?_⟩
        cases earlier with
        | zero => exact hnone
        | succ earlier => exact hbefore earlier (Nat.lt_of_succ_lt_succ h)
    · rintro ⟨pos, hpos, hbefore⟩
      cases pos with
      | zero => exact .inl hpos
      | succ pos =>
        refine .inr ⟨hbefore 0 (Nat.succ_pos _), pos, hpos, fun earlier h => ?_⟩
        exact hbefore (earlier + 1) (Nat.succ_lt_succ h)

theorem first?_of_here? (h : here? cs = some name) : first? cs = some name :=
  first?_eq_some_iff_drop.2 ⟨0, h, fun earlier hlt => absurd hlt (Nat.not_lt_zero earlier)⟩

/-- The header of a name is read, whatever follows it. -/
theorem first?_of_isName {name : String} (h : isName name = true) (rest : List Char) :
    first? (keyword ++ ([' '] ++ (name.toList ++ ' ' :: rest))) = some name.toList :=
  first?_of_here? (here?_eq_some_iff.2 ⟨_, _, readsAs_of_isName h rest⟩)

theorem first?_eq_some_iff : first? cs = some name ↔ ∃ pos, FirstAt cs pos name := by
  rw [first?_eq_some_iff_drop]
  simp only [here?_drop_eq_none_iff, here?_drop_eq_some_iff]
  exact exists_congr fun pos => ⟨fun h => ⟨h.1, h.2⟩, fun h => ⟨h.stands, h.none_before⟩⟩

theorem first?_eq_none_iff : first? cs = none ↔ ∀ pos name, ¬ StandsAt cs pos name := by
  simp only [← here?_drop_eq_none_iff]
  induction cs with
  | nil => simp [first?, here?_drop_nil, -List.drop_nil]
  | cons c cs ih =>
    rw [first?, Option.or_eq_none_iff, ih]
    constructor
    · rintro ⟨hhere, hlater⟩ (- | pos)
      · exact hhere
      · exact hlater pos
    · exact fun h => ⟨h 0, fun pos => h (pos + 1)⟩

/-! ### The leftmost place -/

theorem name?_eq_some_iff {text name : String} :
    name? text = some name ↔ ∃ pos, FirstAt text.toList pos name.toList := by
  rw [name?_eq_first?, Option.map_eq_some_iff, ← first?_eq_some_iff]
  constructor
  · rintro ⟨run, hrun, rfl⟩
    rwa [String.toList_ofList]
  · exact fun h => ⟨_, h, String.ofList_toList⟩

theorem name?_eq_none_iff {text : String} :
    name? text = none ↔ ∀ pos name, ¬ StandsAt text.toList pos name := by
  rw [name?_eq_first?, Option.map_eq_none_iff, first?_eq_none_iff]

/-- The search gives the name of the header that stands at a position with none before it, and it
gives no name only where no header stands at any position. -/
theorem name?_reads_leftmost (text : String) :
    (∀ name, name? text = some name ↔
      ∃ pos, StandsAt text.toList pos name.toList ∧
        ∀ earlier < pos, ∀ other, ¬ StandsAt text.toList earlier other) ∧
      (name? text = none ↔ ∀ pos name, ¬ StandsAt text.toList pos name) := by
  refine ⟨fun name => name?_eq_some_iff.trans ?_, name?_eq_none_iff⟩
  constructor
  · rintro ⟨pos, h⟩
    exact ⟨pos, h.stands, h.none_before⟩
  · rintro ⟨pos, hstands, hbefore⟩
    exact ⟨pos, hstands, hbefore⟩

/-- A keyword with no name, and behind it a keyword whose name is the keyword itself. -/
example : name? "fragment\x7bfragmentfragment\x0cX fragment Y " = some "fragment" := by
  rw [name?_eq_first?]
  decide

end FragmentAssembly.Header
