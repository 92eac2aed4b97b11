/-
FragmentAssembly/Proofs/Text/Characters.lean

Searching characters.  The searches of `FragmentAssembly.Text.Bytes` go from byte to byte.  Here
are the same ones from character to character (`Chars.find?`, `Chars.runEnd`, `Chars.slice`);
where they stand is a place, the number of characters in front of it.

A search over bytes follows a search over characters when each place has a position in the bytes
and the two do the same there (`Spells`).  Bytes can spell characters in two ways:

* the bytes of a text spell its characters, and the position of a place is the border in front of
  its character (`spells_border`);
* any bytes spell the characters of their own numbers, and every place is its own position
  (`spells_oneByOne`).

So one search is behind both, and what is shown of it from `Spells` alone holds for bytes that are
taken one by one, whole characters or not, and for the characters that they encode.

Borders are where a text may be cut: what lies between two of them is a text again
(`isValid_border`, `slice?_border`).
-/
import FragmentAssembly.Text.Encoded

namespace FragmentAssembly.Text

/-! ### The searches, over characters -/

namespace Chars

/-- How many characters stand in front of the first place of a word. -/
def before? (word : List Char) : List Char → Option Nat
  | [] => none
  | c :: cs => if word.isPrefixOf (c :: cs) then some 0 else (before? word cs).map (· + 1)

/-- The first place, from a place on, where the word stands. -/
def find? (word cs : List Char) (place : Nat) : Option Nat :=
  (before? word (cs.drop place)).map (place + ·)

/-- The place after the longest run of characters, from a place on, that pass the test. -/
def runEnd (p : Char → Bool) (cs : List Char) (place : Nat) : Nat :=
  place + ((cs.drop place).takeWhile p).length

/-- The characters from place `start` up to place `stop`. -/
def slice (cs : List Char) (start stop : Nat) : List Char :=
  (cs.take stop).drop start

variable {word cs : List Char} {place found : Nat}

theorem of_before?_eq_some {n : Nat} (h : before? word cs = some n) :
    n < cs.length ∧ word <+: cs.drop n := by
  induction cs generalizing n with
  | nil => cases h
  | cons c cs ih =>
    rw [before?] at h
    split at h
    · rename_i hbegins
      cases h
      exact ⟨Nat.succ_pos _, List.isPrefixOf_iff_prefix.1 hbegins⟩
    · obtain ⟨m, hm, rfl⟩ := Option.map_eq_some_iff.1 h
      obtain ⟨hlt, hword⟩ := ih hm
      exact ⟨Nat.succ_lt_succ hlt, hword⟩

/-- What is found lies in the text, not before the start of the search, and it is the word. -/
theorem of_find?_eq_some (h : find? word cs place = some found) :
    place ≤ found ∧ found < cs.length ∧ word <+: cs.drop found := by
  obtain ⟨n, hn, rfl⟩ := Option.map_eq_some_iff.1 h
  obtain ⟨hlt, hword⟩ := of_before?_eq_some hn
  rw [List.length_drop] at hlt
  rw [List.drop_drop] at hword
  exact ⟨Nat.le_add_right _ _, by omega, hword⟩

/-- The word, and what comes after it, where it is found. -/
theorem exists_drop_eq_of_find? (h : find? word cs place = some found) :
    ∃ rest, cs.drop found = word ++ rest ∧ cs.drop (found + word.length) = rest := by
  obtain ⟨rest, hrest⟩ := (of_find?_eq_some h).2.2
  refine ⟨rest, hrest.symm, ?_⟩
  rw [← List.drop_drop, ← hrest, List.drop_left]

theorem le_runEnd (p : Char → Bool) (cs : List Char) (place : Nat) :
    place ≤ runEnd p cs place :=
  Nat.le_add_right _ _

theorem slice_eq_of_drop {ds more : List Char} {start : Nat} (h : cs.drop start = ds ++ more) :
    slice cs start (start + ds.length) = ds := by
  rw [slice, List.drop_take, h, Nat.add_sub_cancel_left, List.take_left]

end Chars

/-! ### Bytes that follow characters -/

/-- The bytes spell the characters, with a position for every place: whatever is looked for at a
place, found from it on, or read from it on, is at the position of the place, or of the place
that is found or reached.  Positions go on by one over a character below 128. -/
structure Spells (bytes : ByteArray) (cs : List Char) (position : Nat → Nat) : Prop where
  position_zero : position 0 = 0
  position_add : ∀ {place ds more}, cs.drop place = ds ++ more → (∀ c ∈ ds, c.toNat < 128) →
    position (place + ds.length) = position place + ds.length
  byteAt_eq : ∀ {test p}, Reads test p → ∀ place,
    byteAt test bytes (position place) = cs[place]?.any p
  find?_eq : ∀ {word : List Char}, (∀ c ∈ word, c.toNat < 128) → word ≠ [] → ∀ place,
    find? (word.map asciiByte) bytes (position place) =
      (Chars.find? word cs place).map position
  runEnd_eq : ∀ {test p}, Reads test p → ∀ place,
    runEnd test bytes (position place) = position (Chars.runEnd p cs place)

/-- Over a character that passes a test, positions go on by one. -/
theorem Spells.position_succ {bytes : ByteArray} {cs : List Char} {position : Nat → Nat}
    (h : Spells bytes cs position) {test : UInt8 → Bool} {p : Char → Bool} (hr : Reads test p)
    {place : Nat} (hp : cs[place]?.any p = true) :
    position (place + 1) = position place + 1 := by
  obtain ⟨c, hc, hpass⟩ := (Option.any_eq_true p _).1 hp
  obtain ⟨hplace, rfl⟩ := List.getElem?_eq_some_iff.1 hc
  have hdrop : cs.drop place = [cs[place]] ++ cs.drop (place + 1) :=
    List.drop_eq_getElem_cons hplace
  exact h.position_add hdrop (List.forall_mem_singleton.2 (hr.lt_of_pass hpass))

/-! ### The borders of a text -/

/-- The position in front of the character at a place. -/
def border (text : String) (place : Nat) : Nat :=
  (String.ofList (text.toList.take place)).utf8ByteSize

theorem border_zero (text : String) : border text 0 = 0 := rfl

/-- At a border the bytes are those of whole characters before it. -/
theorem isValid_border (text : String) (place : Nat) :
    (⟨border text place⟩ : String.Pos.Raw).IsValid text :=
  String.Pos.Raw.isValid_iff_exists_take_toList.2 ⟨place, rfl⟩

theorem border_eq (text : String) (place : Nat) :
    border text place = ((text.toList.take place).flatMap String.utf8EncodeChar).length := by
  rw [border, ← String.size_toByteArray, String.toByteArray_ofList]
  show ((text.toList.take place).flatMap String.utf8EncodeChar).toByteArray.data.toList.length = _
  rw [List.toList_data_toByteArray]

theorem before_border (text : String) (place : Nat) :
    Before text.toUTF8 (border text place) (text.toList.drop place) := by
  have h := before_toUTF8 text
  rw [← List.take_append_drop place text.toList] at h
  have hskip := h.skipAll
  rwa [Nat.zero_add, ← border_eq] at hskip

/-- One border is as far behind another as the characters between them are long. -/
theorem border_eq_add_slice (text : String) {start stop : Nat} (hle : start ≤ stop) :
    border text stop = border text start +
      ((Chars.slice text.toList start stop).flatMap String.utf8EncodeChar).length := by
  obtain ⟨n, rfl⟩ := Nat.exists_eq_add_of_le hle
  rw [border_eq, border_eq, Chars.slice, List.drop_take, Nat.add_sub_cancel_left, List.take_add,
    List.flatMap_append, List.length_append]

/-- Between two borders lies a text. -/
theorem slice?_border (text : String) {start stop : Nat} (hle : start ≤ stop) :
    slice? text.toUTF8 (border text start) (border text stop) =
      some (String.ofList (Chars.slice text.toList start stop)) := by
  have hdrop : text.toList.drop start =
      Chars.slice text.toList start stop ++ (text.toList.drop start).drop (stop - start) := by
    rw [Chars.slice, List.drop_take, List.take_append_drop]
  have hbefore := before_border text start
  rw [hdrop] at hbefore
  rw [border_eq_add_slice text hle]
  exact slice?_of_before hbefore

/-- Characters below 128 are one byte each. -/
theorem border_add {text : String} {place : Nat} {ds more : List Char}
    (h : text.toList.drop place = ds ++ more) (hds : ∀ c ∈ ds, c.toNat < 128) :
    border text (place + ds.length) = border text place + ds.length := by
  rw [border_eq_add_slice text (Nat.le_add_right _ _), Chars.slice_eq_of_drop h,
    Before.length_encoding_of_lt hds]

/-! ### A text spells its characters -/

/-- From a border on, a word is found behind the characters that stand in front of it. -/
theorem find?_of_before {word : List Char} (hw : ∀ c ∈ word, c.toNat < 128) (hne : word ≠ [])
    {bytes : ByteArray} {pos : Nat} {cs : List Char} (h : Before bytes pos cs) :
    find? (word.map asciiByte) bytes pos =
      (Chars.before? word cs).map fun n =>
        pos + ((cs.take n).flatMap String.utf8EncodeChar).length := by
  induction cs generalizing pos with
  | nil => exact find?_of_nil h
  | cons c cs ih =>
    cases hbegins : word.isPrefixOf (c :: cs) with
    | true =>
      rw [find?_of_isPrefix hw (List.cons_ne_nil _ _) h hbegins, Chars.before?, if_pos hbegins]
      rfl
    | false =>
      -- no byte of the character begins the word, so the search goes on behind all of them
      rw [find?_of_not_isPrefix hw hne h hbegins, ih h.skip, Chars.before?,
        if_neg (by rw [hbegins]; exact Bool.false_ne_true), Option.map_map]
      congr 1
      funext n
      simp only [Function.comp_apply, List.take_succ_cons, List.flatMap_cons, List.length_append]
      omega

/-- The bytes of a text spell its characters, at its borders. -/
theorem spells_border (text : String) : Spells text.toUTF8 text.toList (border text) where
  position_zero := border_zero text
  position_add := border_add
  byteAt_eq hr place := by
    rw [byteAt_of_before hr (before_border text place), List.head?_drop]
  find?_eq hw hne place := by
    rw [find?_of_before hw hne (before_border text place), Chars.find?, Option.map_map]
    congr 1
    funext n
    rw [Function.comp_apply, border_eq_add_slice text (Nat.le_add_right place n), Chars.slice,
      List.drop_take, Nat.add_sub_cancel_left]
  runEnd_eq hr place := by
    have hbefore := before_border text place
    have hascii : ∀ c ∈ (text.toList.drop place).takeWhile _, c.toNat < 128 := fun c hc =>
      hr.lt_of_pass (List.all_eq_true.1 List.all_takeWhile c hc)
    rw [(runEnd_of_before hr hbefore).1, Chars.runEnd,
      border_add List.takeWhile_append_dropWhile.symm hascii]

/-! ### Bytes spell the characters of their numbers -/

/-- The bytes, each as the character of its number. -/
def oneByOne (bytes : ByteArray) : List Char :=
  bytes.data.toList.map Char.ofUInt8

theorem length_oneByOne (bytes : ByteArray) : (oneByOne bytes).length = bytes.size :=
  List.length_map ..

/-- A test that looks for characters below 128 judges a byte as the character of its number. -/
theorem Reads.byte_eq {test : UInt8 → Bool} {p : Char → Bool} (hr : Reads test p) (b : UInt8) :
    test b = p (Char.ofUInt8 b) := by
  have hnumber : (Char.ofUInt8 b).toNat = b.toNat := rfl
  -- the number of a byte from 128 on is that of some character, but of none that is looked for
  obtain hlow | hhigh := Nat.lt_or_ge b.toNat 128
  · rw [← hr.byte _ (by rw [hnumber]; exact hlow)]
    congr 1
    apply UInt8.toNat.inj
    show b.toNat = (Char.ofUInt8 b).toNat % 256
    omega
  · rw [hr.highByte b hhigh, hr.highChar _ (by rw [hnumber]; exact hhigh)]

theorem byteAt_oneByOne {test : UInt8 → Bool} {p : Char → Bool} (hr : Reads test p)
    (bytes : ByteArray) (pos : Nat) : byteAt test bytes pos = (oneByOne bytes)[pos]?.any p := by
  rw [byteAt_eq, oneByOne, List.getElem?_map, Option.any_map]
  congr 1
  funext b
  exact hr.byte_eq b

/-- Where a position lies in the bytes, a character of its own begins there. -/
theorem drop_oneByOne_of_lt {bytes : ByteArray} {pos : Nat} (h : pos < bytes.size) :
    ∃ c, (oneByOne bytes).drop pos = c :: (oneByOne bytes).drop (pos + 1) ∧
      (oneByOne bytes)[pos]? = some c := by
  have hlt : pos < (oneByOne bytes).length := by rwa [length_oneByOne]
  exact ⟨_, List.drop_eq_getElem_cons hlt, List.getElem?_eq_getElem hlt⟩

theorem drop_oneByOne_of_le {bytes : ByteArray} {pos : Nat} (h : bytes.size ≤ pos) :
    (oneByOne bytes).drop pos = [] :=
  List.drop_eq_nil_of_le (by rwa [length_oneByOne])

theorem wordAt_oneByOne {word : List Char} (hw : ∀ c ∈ word, c.toNat < 128) (bytes : ByteArray)
    (pos : Nat) :
    wordAt bytes (word.map asciiByte) pos = word.isPrefixOf ((oneByOne bytes).drop pos) := by
  induction word generalizing pos with
  | nil => simp [wordAt]
  | cons d word ih =>
    obtain ⟨hd, hword⟩ := List.forall_mem_cons.1 hw
    rw [List.map_cons, wordAt, byteAt_oneByOne (reads_beq hd), ih hword]
    obtain hlt | hle := Nat.lt_or_ge pos bytes.size
    · obtain ⟨c, hdrop, hget⟩ := drop_oneByOne_of_lt hlt
      rw [hdrop, hget, List.isPrefixOf, Option.any_some, Bool.beq_comm]
    · have hnone : (oneByOne bytes)[pos]? = none :=
        List.getElem?_eq_none (by rwa [length_oneByOne])
      rw [drop_oneByOne_of_le hle, hnone]
      rfl

theorem find?_oneByOne {word : List Char} (hw : ∀ c ∈ word, c.toNat < 128) (bytes : ByteArray)
    (pos : Nat) :
    find? (word.map asciiByte) bytes pos = Chars.find? word (oneByOne bytes) pos := by
  fun_induction find? (word.map asciiByte) bytes pos with
  | case1 pos hlt hword =>
    obtain ⟨c, hdrop, -⟩ := drop_oneByOne_of_lt hlt
    rw [wordAt_oneByOne hw, hdrop] at hword
    rw [Chars.find?, hdrop, Chars.before?, if_pos hword]
    rfl
  | case2 pos hlt hword ih =>
    obtain ⟨c, hdrop, -⟩ := drop_oneByOne_of_lt hlt
    rw [wordAt_oneByOne hw, hdrop] at hword
    rw [ih, Chars.find?, Chars.find?, hdrop, Chars.before?, if_neg hword, Option.map_map]
    congr 1
    funext n
    show pos + 1 + n = pos + (n + 1)
    omega
  | case3 pos hle =>
    rw [Chars.find?, drop_oneByOne_of_le (Nat.le_of_not_lt hle)]
    rfl

theorem runEnd_oneByOne {test : UInt8 → Bool} {p : Char → Bool} (hr : Reads test p)
    (bytes : ByteArray) (pos : Nat) :
    runEnd test bytes pos = Chars.runEnd p (oneByOne bytes) pos := by
  fun_induction runEnd test bytes pos with
  | case1 pos hpass ih =>
    obtain ⟨c, hdrop, hget⟩ := drop_oneByOne_of_lt (lt_of_byteAt hpass)
    rw [byteAt_oneByOne hr, hget, Option.any_some] at hpass
    rw [ih, Chars.runEnd, Chars.runEnd, hdrop, List.takeWhile_cons_of_pos hpass, List.length_cons]
    omega
  | case2 pos hfail =>
    rw [Chars.runEnd]
    obtain hlt | hle := Nat.lt_or_ge pos bytes.size
    · obtain ⟨c, hdrop, hget⟩ := drop_oneByOne_of_lt hlt
      rw [byteAt_oneByOne hr, hget, Option.any_some] at hfail
      rw [hdrop, List.takeWhile_cons_of_neg hfail]
      rfl
    · rw [drop_oneByOne_of_le hle]
      rfl

/-- Bytes spell the characters of their numbers, every place at itself. -/
theorem spells_oneByOne (bytes : ByteArray) : Spells bytes (oneByOne bytes) id where
  position_zero := rfl
  position_add _ _ := rfl
  byteAt_eq hr place := byteAt_oneByOne hr bytes place
  find?_eq hw _ place := by
    rw [Option.map_id]
    exact find?_oneByOne hw bytes place
  runEnd_eq hr place := runEnd_oneByOne hr bytes place

end FragmentAssembly.Text
