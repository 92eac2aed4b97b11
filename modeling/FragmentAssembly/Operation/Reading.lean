/-
FragmentAssembly/Operation/Reading.lean

Reading an operation that was written with a header.  The reader knows the kind.  A text that does
not begin with the word of the kind is a body.  Otherwise name characters directly after the word
are the name, an opening parenthesis begins the variables, and what follows is the body.

Types are free texts, so in general one text may have been written in several ways, and the reader
takes one of them.
-/
import FragmentAssembly.Operation.Draft
import FragmentAssembly.Text.Name

namespace FragmentAssembly

namespace Variable

/-- Reads a declaration with a space in front of it: a dollar sign, the name up to the first colon,
a space, and the type. -/
def read? : List Char → Option Variable
  | ' ' :: '$' :: cs =>
    match cs.dropWhile (· != ':') with
    | ':' :: ' ' :: typeName =>
      some ⟨String.ofList (cs.takeWhile (· != ':')), String.ofList typeName⟩
    | _ => none
  | _ => none

/-- Reads declarations with commas between them. -/
def readAll? (cs : List Char) : Option (List Variable) :=
  ((' ' :: cs).splitOn ',').mapM read?

end Variable

namespace OperationDraft

/-- Reads what follows the kind and the name: variables between parentheses, if there are any, and
the body. -/
def readRest? : List Char → Option (List Variable × String)
  | '(' :: cs =>
    match cs.dropWhile (· != ')') with
    | ')' :: ' ' :: body =>
      (Variable.readAll? (cs.takeWhile (· != ')'))).map (·, String.ofList body)
    | _ => none
  | cs => some ([], String.ofList cs)

/-- Reads what follows the kind: a name with a space behind it, if there is one, and the rest. -/
def readNamed? (cs : List Char) : Option OperationDraft :=
  match cs.takeWhile Text.isNameChar, cs.dropWhile Text.isNameChar with
  | [], rest => (readRest? rest).map fun (vs, body) => ⟨body, none, vs⟩
  | name, ' ' :: rest =>
    (readRest? rest).map fun (vs, body) => ⟨body, some (String.ofList name), vs⟩
  | _, _ => none

/-- Reads an operation of a kind. -/
def read? (kind : OperationKind) (text : String) : Option OperationDraft :=
  match (kind.word ++ " ").toList.isPrefixOf? text.toList with
  | none => some ⟨text, none, []⟩
  | some cs => readNamed? cs

end OperationDraft

end FragmentAssembly
