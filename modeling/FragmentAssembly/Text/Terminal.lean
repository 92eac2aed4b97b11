/-
FragmentAssembly/Text/Terminal.lean

Text for a terminal.  The characters that steer a terminal are written as their numbers,
so that a text from outside cannot do so; tabs and line ends stay as they are.

* escape, bell, backspace, form feed and delete with two digits, as in `\x1b`;
* the controls from U+0080 to U+009F in braces, as in `\u{9b}`.
-/
import FragmentAssembly.Text.Quoted

namespace FragmentAssembly.Text.Terminal

/-- How one character is written. -/
def escape (c : Char) : List Char :=
  match c with
  | '\x07' => ['\\', 'x', '0', '7']
  | '\x08' => ['\\', 'x', '0', '8']
  | '\x0c' => ['\\', 'x', '0', 'c']
  | '\x1b' => ['\\', 'x', '1', 'b']
  | '\x7f' => ['\\', 'x', '7', 'f']
  | c => if 0x80 ≤ c.toNat ∧ c.toNat ≤ 0x9f then Quoted.number c else [c]

/-- The text without characters that steer a terminal. -/
def encode (text : String) : String :=
  String.ofList (text.toList.flatMap escape)

end FragmentAssembly.Text.Terminal
