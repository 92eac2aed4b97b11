/-
FragmentAssembly/Header/Basic.lean

What a fragment header is.  A definition declares its name by the word `fragment`,
ASCII blanks (which may be missing), a name and an ASCII blank after it, as in
`fragment UserFields on User`.  The declared name of a text is the name of the first
place that reads so (`Header.first?`); the word may stand anywhere, also inside
another word.

`Header.name?`, in `FragmentAssembly.Header.Search`, finds the same name by looking
only at the places where the word stands.
-/
import FragmentAssembly.Text.Blank
import FragmentAssembly.Text.Name

namespace FragmentAssembly.Header

open Text

/-- The word that opens a header. -/
def keyword : List Char := ['f', 'r', 'a', 'g', 'm', 'e', 'n', 't']

/-- What follows a header's keyword: blanks, a name, and a blank after the name. -/
def nameAfterKeyword? (cs : List Char) : Option (List Char) :=
  match cs.dropWhile isAsciiBlank with
  | [] => none
  | c :: rest =>
    if isNameStart c then
      match rest.dropWhile isNameChar with
      | [] => none
      | b :: _ => if isAsciiBlank b then some (c :: rest.takeWhile isNameChar) else none
    else none

/-- The name that a header at the beginning of the characters declares. -/
def here? (cs : List Char) : Option (List Char) :=
  if keyword.isPrefixOf cs then nameAfterKeyword? (cs.drop keyword.length) else none

/-- The name that the first header in the characters declares. -/
def first? : List Char → Option (List Char)
  | [] => none
  | c :: cs => (here? (c :: cs)).or (first? cs)

end FragmentAssembly.Header
