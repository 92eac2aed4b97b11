/-
FragmentAssembly/Text/Encoded.lean

Positions between characters.  `Before bytes pos cs` says that the bytes from `pos` on
are the encoding of the characters `cs`, so that `pos` lies on the border of a
character and `cs` is what is still to come.

Seen from such a position, a search over bytes is a search over characters:

* `byteAt_of_before`, `wordAt_of_before`   what stands at the position;
* `runEnd_of_before`                       a run of bytes is a run of characters;
* `find?_of_isPrefix`, `find?_of_not_isPrefix`  a word is found where it begins the
  characters, and is never found inside a character;
* `slice?_of_before`                       a slice between two borders is a text.

All of it rests on one fact: in the encoding of a character from 128 on, every byte is
128 or more (`le_of_mem_encoding`).
-/
import FragmentAssembly.Text.Bytes

namespace FragmentAssembly.Text

/-! ### The encoding of one character -/

/-- A character below 128 is one byte, its own number. -/
theorem encoding_of_lt {c : Char} (h : c.toNat < 128) :
    String.utf8EncodeChar c = [asciiByte c] := by
  have hsize : c.utf8Size = 1 := by
    rw [Char.utf8Size_eq_one_iff, UInt32.le_iff_toNat_le]
    exact Nat.le_of_lt_succ h
  rw [String.utf8EncodeChar_eq_singleton hsize]
  rfl

/-- Every byte of a character from 128 on is 128 or more. -/
theorem le_of_mem_encoding {c : Char} (h : 128 ≤ c.toNat) {b : UInt8}
    (hb : b ∈ String.utf8EncodeChar c) : 128 ≤ b.toNat := by
  have hv : ¬ c.val.toNat ≤ 127 := by
    have : c.toNat = c.val.toNat := rfl
    omega
  unfold String.utf8EncodeChar at hb
  simp only [hv, if_false] at hb
  have high : ∀ n : Nat, 128 ≤ n → n < 256 → 128 ≤ (UInt8.ofNat n).toNat := by
    intro n h1 h2
    rw [UInt8.toNat_ofNat', Nat.mod_eq_of_lt h2]
    exact h1
  split at hb
  · simp only [List.mem_cons, List.not_mem_nil, or_false] at hb
    rcases hb with rfl | rfl <;> exact high _ (by omega) (by omega)
  split at hb
  · simp only [List.mem_cons, List.not_mem_nil, or_false] at hb
    rcases hb with rfl | rfl | rfl <;> exact high _ (by omega) (by omega)
  · simp only [List.mem_cons, List.not_mem_nil, or_false] at hb
    rcases hb with rfl | rfl | rfl | rfl <;> exact high _ (by omega) (by omega)

theorem encoding_ne_nil (c : Char) : String.utf8EncodeChar c ≠ [] := by
  intro h
  have hlen := String.length_utf8EncodeChar c
  rw [h] at hlen
  have := c.utf8Size_pos
  simp at hlen
  omega

/-! ### Tests of bytes and of characters -/

/-- A test of bytes that finds the characters below 128 that pass a test, and nothing
else. -/
structure Reads (test : UInt8 → Bool) (p : Char → Bool) : Prop where
  byte : ∀ c : Char, c.toNat < 128 → test (asciiByte c) = p c
  highByte : ∀ b : UInt8, 128 ≤ b.toNat → test b = false
  highChar : ∀ c : Char, 128 ≤ c.toNat → p c = false

/-- What passes a test that bytes can be put to is below 128. -/
theorem Reads.lt_of_pass {test : UInt8 → Bool} {p : Char → Bool} (hr : Reads test p) {c : Char}
    (hc : p c = true) : c.toNat < 128 := by
  apply Nat.lt_of_not_le
  intro hle
  rw [hr.highChar c hle] at hc
  cases hc

/-- Judging a byte as the character of its number finds the characters that pass, if all of
them are below 128. -/
theorem reads_ofUInt8 {p : Char → Bool} (hp : ∀ c : Char, p c = true → c.toNat < 128) :
    Reads (fun b => p (Char.ofUInt8 b)) p where
  byte c hc := by
    congr 1
    apply Char.ext
    apply UInt32.toNat.inj
    show (Char.ofUInt8 (asciiByte c)).toNat = c.toNat
    have h1 : (Char.ofUInt8 (asciiByte c)).toNat = (asciiByte c).toNat := rfl
    have h2 : (asciiByte c).toNat = c.toNat % 256 := rfl
    omega
  highByte b hb := by
    rw [Bool.eq_false_iff]
    intro h
    have := hp _ h
    have h1 : (Char.ofUInt8 b).toNat = b.toNat := rfl
    omega
  highChar c hc := by
    rw [Bool.eq_false_iff]
    intro h
    have := hp _ h
    omega

theorem lt_of_isNameStart {c : Char} (h : isNameStart c = true) : c.toNat < 128 :=
  lt_of_isNameChar (isNameChar_of_isNameStart h)

theorem lt_of_isAsciiBlank {c : Char} (h : isAsciiBlank c = true) : c.toNat < 128 := by
  simp only [isAsciiBlank, Bool.or_eq_true, beq_iff_eq] at h
  rcases h with (((rfl | rfl) | rfl) | rfl) | rfl <;> decide

theorem reads_isNameByte : Reads isNameByte isNameChar :=
  reads_ofUInt8 fun _ => lt_of_isNameChar

theorem reads_isNameStartByte : Reads isNameStartByte isNameStart :=
  reads_ofUInt8 fun _ => lt_of_isNameStart

theorem reads_isBlankByte : Reads isBlankByte isAsciiBlank :=
  reads_ofUInt8 fun _ => lt_of_isAsciiBlank

/-- Looking for the byte of one character finds that character. -/
theorem reads_beq {d : Char} (hd : d.toNat < 128) : Reads (· == asciiByte d) (· == d) where
  byte c hc := by
    rw [Bool.eq_iff_iff, beq_iff_eq, beq_iff_eq]
    constructor
    · intro h
      apply Char.ext
      apply UInt32.toNat.inj
      have h1 := congrArg UInt8.toNat h
      have h2 : (asciiByte c).toNat = c.toNat % 256 := rfl
      have h3 : (asciiByte d).toNat = d.toNat % 256 := rfl
      show c.toNat = d.toNat
      omega
    · rintro rfl
      rfl
  highByte b hb := by
    rw [beq_eq_false_iff_ne]
    rintro rfl
    have h2 : (asciiByte d).toNat = d.toNat % 256 := rfl
    omega
  highChar c hc := by
    rw [beq_eq_false_iff_ne]
    rintro rfl
    omega

/-! ### Positions -/

/-- The bytes from `pos` on are the encoding of the characters. -/
structure Before (bytes : ByteArray) (pos : Nat) (cs : List Char) : Prop where
  bytes_eq : bytes.data.toList.drop pos = cs.flatMap String.utf8EncodeChar
  le_size : pos ≤ bytes.size

/-- The whole text comes after its beginning. -/
theorem before_toUTF8 (text : String) : Before text.toUTF8 0 text.toList where
  bytes_eq := by
    rw [List.drop_zero, String.toUTF8_eq_toByteArray, ← String.utf8Encode_toList]
    exact List.toList_data_toByteArray
  le_size := Nat.zero_le _

namespace Before

variable {bytes : ByteArray} {pos : Nat} {c : Char} {cs : List Char}

/-- The position after one character. -/
theorem skip (h : Before bytes pos (c :: cs)) :
    Before bytes (pos + (String.utf8EncodeChar c).length) cs where
  bytes_eq := by
    rw [← List.drop_drop, h.bytes_eq, List.flatMap_cons, List.drop_left]
  le_size := by
    have hlen := congrArg List.length h.bytes_eq
    have := h.le_size
    rw [List.length_drop, List.flatMap_cons, List.length_append] at hlen
    have hsize : bytes.size = bytes.data.toList.length := rfl
    omega

/-- The position after some characters. -/
theorem skipAll {ds : List Char} (h : Before bytes pos (ds ++ cs)) :
    Before bytes (pos + (ds.flatMap String.utf8EncodeChar).length) cs := by
  induction ds generalizing pos with
  | nil => exact h
  | cons d ds ih =>
    have := ih h.skip
    rw [Nat.add_assoc, ← List.length_append, ← List.flatMap_cons] at this
    exact this

theorem length_encoding_of_lt {ds : List Char} (hds : ∀ c ∈ ds, c.toNat < 128) :
    (ds.flatMap String.utf8EncodeChar).length = ds.length := by
  induction ds with
  | nil => rfl
  | cons d ds ih =>
    rw [List.flatMap_cons, encoding_of_lt (hds d List.mem_cons_self), List.length_append,
      ih fun c hc => hds c (List.mem_cons_of_mem _ hc), List.length_cons, List.length_cons,
      List.length_nil]
    omega

/-- The position after some characters below 128. -/
theorem skipAscii {ds : List Char} (h : Before bytes pos (ds ++ cs))
    (hds : ∀ c ∈ ds, c.toNat < 128) : Before bytes (pos + ds.length) cs := by
  have := h.skipAll
  rwa [length_encoding_of_lt hds] at this

/-- At the end of the text nothing comes. -/
theorem pos_eq_size (h : Before bytes pos []) : pos = bytes.size := by
  have hlen := congrArg List.length h.bytes_eq
  have := h.le_size
  have hsize : bytes.size = bytes.data.toList.length := rfl
  simp only [List.flatMap_nil, List.length_nil, List.length_drop] at hlen
  omega

/-- The byte at a position inside the encoding of the next character. -/
theorem getElem?_add (h : Before bytes pos (c :: cs)) {k : Nat}
    (hk : k < (String.utf8EncodeChar c).length) :
    bytes.data.toList[pos + k]? = some (String.utf8EncodeChar c)[k] := by
  rw [← List.getElem?_drop, h.bytes_eq, List.flatMap_cons, List.getElem?_append_left hk,
    List.getElem?_eq_getElem hk]

theorem lt_size (h : Before bytes pos (c :: cs)) {k : Nat}
    (hk : k < (String.utf8EncodeChar c).length) : pos + k < bytes.size := by
  have := h.getElem?_add hk
  have hsize : bytes.size = bytes.data.toList.length := rfl
  rw [hsize]
  exact (List.getElem?_eq_some_iff.1 this).1

end Before

/-! ### What stands at a position -/

section Standing

variable {bytes : ByteArray} {pos : Nat} {test : UInt8 → Bool} {p : Char → Bool}

theorem byteAt_eq (bytes : ByteArray) (pos : Nat) (test : UInt8 → Bool) :
    byteAt test bytes pos = bytes.data.toList[pos]?.any test := by
  unfold byteAt
  have hsize : bytes.size = bytes.data.toList.length := rfl
  split
  · rename_i h
    rw [List.getElem?_eq_getElem (by omega)]
    rfl
  · rename_i h
    rw [List.getElem?_eq_none (by omega)]
    rfl

/-- The byte at a border passes as the next character passes. -/
theorem byteAt_of_before (hr : Reads test p) {cs : List Char} (h : Before bytes pos cs) :
    byteAt test bytes pos = cs.head?.any p := by
  rw [byteAt_eq]
  cases cs with
  | nil =>
    rw [List.getElem?_eq_none]
    · rfl
    · have := h.pos_eq_size
      exact Nat.le_of_eq this.symm
  | cons c cs =>
    have hpos : 0 < (String.utf8EncodeChar c).length :=
      List.length_pos_iff.2 (encoding_ne_nil c)
    have hget := h.getElem?_add hpos
    rw [Nat.add_zero] at hget
    rw [hget]
    by_cases hc : c.toNat < 128
    · simp only [encoding_of_lt hc, List.getElem_cons_zero, Option.any_some, List.head?_cons]
      exact hr.byte c hc
    · simp only [Option.any_some, List.head?_cons]
      rw [hr.highChar c (by omega)]
      exact hr.highByte _ (le_of_mem_encoding (by omega) (List.getElem_mem hpos))

/-- No byte inside a character passes. -/
theorem byteAt_inside (hr : Reads test p) {c : Char} {cs : List Char}
    (h : Before bytes pos (c :: cs)) {k : Nat} (hpos : 0 < k)
    (hk : k < (String.utf8EncodeChar c).length) : byteAt test bytes (pos + k) = false := by
  rw [byteAt_eq, h.getElem?_add hk]
  by_cases hc : c.toNat < 128
  · rw [encoding_of_lt hc] at hk
    simp only [List.length_cons, List.length_nil] at hk
    omega
  · exact hr.highByte _ (le_of_mem_encoding (by omega) (List.getElem_mem hk))

/-- A word stands at a border if the characters to come begin with it. -/
theorem wordAt_of_before {word cs : List Char} (hw : ∀ c ∈ word, c.toNat < 128)
    (h : Before bytes pos cs) :
    wordAt bytes (word.map asciiByte) pos = word.isPrefixOf cs := by
  induction word generalizing pos cs with
  | nil => simp [wordAt]
  | cons d word ih =>
    have hd := hw d List.mem_cons_self
    rw [List.map_cons, wordAt, byteAt_of_before (reads_beq hd) h]
    cases cs with
    | nil => simp
    | cons c cs =>
      by_cases hcd : c = d
      · subst hcd
        have hnext := h.skip
        rw [encoding_of_lt hd] at hnext
        have hrest := ih (fun e he => hw e (List.mem_cons_of_mem _ he)) hnext
        rw [List.length_singleton] at hrest
        rw [hrest]
        simp [List.isPrefixOf]
      · have hne : (c == d) = false := beq_eq_false_iff_ne.2 hcd
        have hne' : (d == c) = false := beq_eq_false_iff_ne.2 (Ne.symm hcd)
        rw [List.head?_cons, Option.any_some, hne, Bool.false_and, List.isPrefixOf, hne',
          Bool.false_and]

/-- A word does not stand inside a character. -/
theorem wordAt_inside {word : List Char} (hw : ∀ c ∈ word, c.toNat < 128) (hne : word ≠ [])
    {c : Char} {cs : List Char} (h : Before bytes pos (c :: cs)) {k : Nat} (hpos : 0 < k)
    (hk : k < (String.utf8EncodeChar c).length) :
    wordAt bytes (word.map asciiByte) (pos + k) = false := by
  cases word with
  | nil => exact absurd rfl hne
  | cons d word =>
    rw [List.map_cons, wordAt, byteAt_inside (reads_beq (hw d List.mem_cons_self)) h hpos hk,
      Bool.false_and]

/-! ### Runs and slices -/

/-- A run of bytes from a border on is a run of characters, and ends at a border. -/
theorem runEnd_of_before (hr : Reads test p) {cs : List Char} (h : Before bytes pos cs) :
    runEnd test bytes pos = pos + (cs.takeWhile p).length ∧
      Before bytes (pos + (cs.takeWhile p).length) (cs.dropWhile p) := by
  induction cs generalizing pos with
  | nil =>
    rw [runEnd, byteAt_of_before hr h]
    exact ⟨rfl, h⟩
  | cons c cs ih =>
    rw [runEnd, byteAt_of_before hr h, List.head?_cons, Option.any_some]
    by_cases hc : p c = true
    · have hlt : c.toNat < 128 := hr.lt_of_pass hc
      have hnext := h.skip
      rw [encoding_of_lt hlt, List.length_singleton] at hnext
      rw [if_pos hc, List.takeWhile_cons_of_pos hc, List.dropWhile_cons_of_pos hc,
        List.length_cons]
      have := ih hnext
      rwa [Nat.add_assoc, Nat.add_comm 1] at this
    · rw [if_neg hc, List.takeWhile_cons_of_neg hc, List.dropWhile_cons_of_neg hc]
      exact ⟨rfl, h⟩

/-- The slice between two borders is the text between them. -/
theorem slice?_of_before {ds cs : List Char} (h : Before bytes pos (ds ++ cs)) :
    slice? bytes pos (pos + (ds.flatMap String.utf8EncodeChar).length) =
      some (String.ofList ds) := by
  have hle := h.skipAll.le_size
  rw [slice?, if_pos ⟨Nat.le_add_right _ _, hle⟩]
  have hbytes : bytes.extract pos (pos + (ds.flatMap String.utf8EncodeChar).length) =
      (String.ofList ds).toByteArray := by
    apply ByteArray.ext
    apply Array.toList_inj.1
    rw [String.toByteArray_ofList, ByteArray.data_extract, Array.toList_extract]
    show (List.drop pos bytes.data.toList).take _ = _
    rw [Nat.add_sub_cancel_left, h.bytes_eq, List.flatMap_append, List.take_left]
    exact List.toList_data_toByteArray.symm
  rw [hbytes, String.fromUTF8?, dif_pos (String.ofList ds).isValidUTF8]
  rfl

/-- The slice over characters below 128 is as long as they are. -/
theorem slice?_of_ascii {ds cs : List Char} (hds : ∀ c ∈ ds, c.toNat < 128)
    (h : Before bytes pos (ds ++ cs)) :
    slice? bytes pos (pos + ds.length) = some (String.ofList ds) := by
  have := slice?_of_before h
  rwa [Before.length_encoding_of_lt hds] at this

/-! ### Finding a word -/

/-- Nothing is found at the end of a text. -/
theorem find?_of_nil {word : List UInt8} (h : Before bytes pos []) : find? word bytes pos = none := by
  rw [find?, if_neg (by rw [h.pos_eq_size]; exact Nat.lt_irrefl _)]

/-- A word is found at once where the characters begin with it. -/
theorem find?_of_isPrefix {word cs : List Char} (hw : ∀ c ∈ word, c.toNat < 128) (hne : cs ≠ [])
    (h : Before bytes pos cs) (hp : word.isPrefixOf cs = true) :
    find? (word.map asciiByte) bytes pos = some pos := by
  cases cs with
  | nil => exact absurd rfl hne
  | cons c cs =>
    have hlt := h.lt_size (List.length_pos_iff.2 (encoding_ne_nil c))
    rw [find?, if_pos (by simpa using hlt), if_pos (by rw [wordAt_of_before hw h, hp])]

/-- Where the characters do not begin with a word, the search goes on after the next
character. -/
theorem find?_of_not_isPrefix {word cs : List Char} (hw : ∀ c ∈ word, c.toNat < 128)
    (hne : word ≠ []) {c : Char} (h : Before bytes pos (c :: cs))
    (hp : word.isPrefixOf (c :: cs) = false) :
    find? (word.map asciiByte) bytes pos =
      find? (word.map asciiByte) bytes (pos + (String.utf8EncodeChar c).length) := by
  suffices ∀ n k, k + n = (String.utf8EncodeChar c).length →
      find? (word.map asciiByte) bytes (pos + k) =
        find? (word.map asciiByte) bytes (pos + (String.utf8EncodeChar c).length) from
    this _ 0 (Nat.zero_add _)
  intro n
  induction n with
  | zero =>
    intro k hk
    rw [← hk, Nat.add_zero]
  | succ n ih =>
    intro k hk
    have hklt : k < (String.utf8EncodeChar c).length := by omega
    have hno : wordAt bytes (word.map asciiByte) (pos + k) = false := by
      cases k with
      | zero => rw [Nat.add_zero, wordAt_of_before hw h, hp]
      | succ k =>
        exact wordAt_inside hw hne h (Nat.succ_pos k) hklt
    rw [find?, if_pos (h.lt_size hklt), if_neg (by rw [hno]; exact Bool.false_ne_true),
      Nat.add_assoc]
    exact ih (k + 1) (by omega)

end Standing

end FragmentAssembly.Text
