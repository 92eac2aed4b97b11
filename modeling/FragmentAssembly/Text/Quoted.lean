/-
FragmentAssembly/Text/Quoted.lean

Quoted text, the form in which a message shows a path or a name: the text between
double quotes, with a backslash before a quote or a backslash, a letter for the four
common control characters, and the number of every other character that cannot be
shown, as in `\u{200b}`.
-/
import FragmentAssembly.Text.Printable

namespace FragmentAssembly.Text.Quoted

/-- A character written as its number: the hexadecimal digits in lower case, without
leading zeros, in braces. -/
def number (c : Char) : List Char :=
  ['\\', 'u', '\x7b'] ++ Nat.toDigits 16 c.toNat ++ ['\x7d']

/-- How one character is written between the quotes. -/
def escape (c : Char) : List Char :=
  match c with
  | '"' => ['\\', '"']
  | '\\' => ['\\', '\\']
  | '\n' => ['\\', 'n']
  | '\t' => ['\\', 't']
  | '\r' => ['\\', 'r']
  | '\x00' => ['\\', '0']
  | c => if isPrintable c then [c] else number c

/-- The text in quotes. -/
def encode (text : String) : String :=
  String.ofList ('"' :: (text.toList.flatMap escape ++ ['"']))

/-- Several texts as a bracketed list of quoted texts. -/
def encodeList (texts : List String) : String :=
  "[" ++ ", ".intercalate (texts.map encode) ++ "]"

end FragmentAssembly.Text.Quoted
