/-
FragmentAssembly/Text/JsonString.lean

JSON string literals.  Writing (`encode`) escapes the quote, the backslash and the
characters below 0x20, and nothing else; five of the latter have a letter, the others
are written by number.  Reading (`decode?`) follows the JSON grammar in full: every
escape letter, numbers in either case, and surrogate pairs.  What is written reads back
(`decode?_encode`), so two texts never share a literal.
-/

namespace FragmentAssembly.Text.JsonString

/-! ### Writing -/

/-- The hexadecimal digit of a number below 16, in lower case. -/
def hexDigit (n : Nat) : Char :=
  if n < 10 then Char.ofNat (0x30 + n) else Char.ofNat (0x57 + n)

/-- How one character is written. -/
def escape (c : Char) : List Char :=
  match c with
  | '"' => ['\\', '"']
  | '\\' => ['\\', '\\']
  | '\x08' => ['\\', 'b']
  | '\x0c' => ['\\', 'f']
  | '\n' => ['\\', 'n']
  | '\r' => ['\\', 'r']
  | '\t' => ['\\', 't']
  | c =>
    if c.toNat < 0x20 then
      ['\\', 'u', '0', '0', hexDigit (c.toNat / 16), hexDigit (c.toNat % 16)]
    else [c]

/-- The literal of a text. -/
def encode (text : String) : String :=
  String.ofList ('"' :: (text.toList.flatMap escape ++ ['"']))

/-! ### Reading -/

/-- The value of a hexadecimal digit of either case. -/
def hexValue? (c : Char) : Option Nat :=
  if '0' ≤ c ∧ c ≤ '9' then some (c.toNat - 0x30)
  else if 'a' ≤ c ∧ c ≤ 'f' then some (c.toNat - 0x57)
  else if 'A' ≤ c ∧ c ≤ 'F' then some (c.toNat - 0x37)
  else none

/-- The number that four hexadecimal digits write. -/
def hexValue4? (a b c d : Char) : Option Nat := do
  let a ← hexValue? a
  let b ← hexValue? b
  let c ← hexValue? c
  let d ← hexValue? d
  return ((a * 16 + b) * 16 + c) * 16 + d

/-- The character of an escape letter. -/
def unescape? : Char → Option Char
  | '"' => some '"'
  | '\\' => some '\\'
  | '/' => some '/'
  | 'b' => some '\x08'
  | 'f' => some '\x0c'
  | 'n' => some '\n'
  | 'r' => some '\r'
  | 't' => some '\t'
  | _ => none

/-- The character that a pair of surrogates stands for. -/
def pair? (high low : Nat) : Option Char :=
  if 0xd800 ≤ high ∧ high < 0xdc00 ∧ 0xdc00 ≤ low ∧ low < 0xe000 then
    some (Char.ofNat (0x10000 + (high - 0xd800) * 0x400 + (low - 0xdc00)))
  else none

/-- Reads what follows the opening quote, up to the closing quote at the end. -/
def body? : List Char → Option (List Char)
  | [] => none
  | ['"'] => some []
  | '\\' :: 'u' :: a :: b :: c :: d :: rest =>
    match hexValue4? a b c d with
    | none => none
    | some high =>
      if high.isValidChar then (body? rest).map (Char.ofNat high :: ·)
      else
        match rest with
        | '\\' :: 'u' :: a :: b :: c :: d :: rest =>
          match (hexValue4? a b c d).bind (pair? high) with
          | none => none
          | some c => (body? rest).map (c :: ·)
        | _ => none
  | '\\' :: e :: rest =>
    match unescape? e with
    | none => none
    | some c => (body? rest).map (c :: ·)
  | c :: rest =>
    if c = '"' ∨ c = '\\' ∨ c.toNat < 0x20 then none else (body? rest).map (c :: ·)

/-- The text that a literal stands for. -/
def decode? (literal : String) : Option String :=
  match literal.toList with
  | '"' :: rest => (body? rest).map String.ofList
  | _ => none

/-! ### Reading what is written -/

theorem hexValue?_hexDigit : ∀ n < 16, hexValue? (hexDigit n) = some n := by decide

/-- Two digits are enough for a control character. -/
theorem hexValue4?_control {n : Nat} (h : n < 0x20) :
    hexValue4? '0' '0' (hexDigit (n / 16)) (hexDigit (n % 16)) = some n := by
  have h0 : hexValue? '0' = some 0 := by decide
  have h1 := hexValue?_hexDigit (n / 16) (by omega)
  have h2 := hexValue?_hexDigit (n % 16) (by omega)
  simp only [hexValue4?, h0, h1, h2, Option.bind_eq_bind, Option.bind_some, Option.pure_def,
    Option.some.injEq]
  omega

/-- What is written for one character reads back as that character. -/
theorem body?_escape (c : Char) (rest : List Char) :
    body? (escape c ++ rest) = (body? rest).map (c :: ·) := by
  unfold escape
  split
  · simp [body?, unescape?]
  · simp [body?, unescape?]
  · simp [body?, unescape?]
  · simp [body?, unescape?]
  · simp [body?, unescape?]
  · simp [body?, unescape?]
  · simp [body?, unescape?]
  · rename_i hq hb _ _ _ _ _
    split
    · rename_i h
      have hv : c.toNat.isValidChar := c.valid
      simp only [List.cons_append, List.nil_append, body?, hexValue4?_control h, if_pos hv,
        Char.ofNat_toNat]
    · rename_i h
      rw [List.singleton_append, body?.eq_def]
      split
      · simp_all
      · simp_all
      · simp_all
      · simp_all
      · rename_i heq
        cases heq
        rw [if_neg]
        simp only [not_or]
        exact ⟨hq, hb, h⟩

/-- A written literal reads back as its text. -/
theorem decode?_encode (text : String) : decode? (encode text) = some text := by
  have body : ∀ cs, body? (cs.flatMap escape ++ ['"']) = some cs := by
    intro cs
    induction cs with
    | nil => rfl
    | cons c cs ih => rw [List.flatMap_cons, List.append_assoc, body?_escape, ih]; rfl
  simp [decode?, encode, body]

end FragmentAssembly.Text.JsonString
