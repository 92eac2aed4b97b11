/-
FragmentAssembly/Command/Variable.lean

Variables on the command line, written `name=Type` or `$name=Type`.  The argument is
split at its first `=`, so a type may hold further ones, as in `first=Int = 10`.
-/
import FragmentAssembly.Operation.Variable
import FragmentAssembly.Text.Blank
import FragmentAssembly.Text.Split

namespace FragmentAssembly

/-- Why an argument declares no variable. -/
inductive VariableError where
  /-- There is no `=` in it. -/
  | notPair (argument : String)
  /-- Nothing is left of the name or of the type. -/
  | incomplete (argument : String)
deriving DecidableEq, Repr

/-- The wording of a refusal. -/
def VariableError.message : VariableError → String
  | notPair argument => s!"Expected a variable in `name=Type` form, but got `{argument}`."
  | incomplete argument =>
    s!"Both a variable name and a type are required, but got `{argument}`."

namespace Variable

/-- The text without the dollar signs at its beginning. -/
def dropDollars (text : String) : String :=
  String.ofList (text.toList.dropWhile (· == '$'))

/-- The variable that an argument declares.  Both sides of the `=` are trimmed of blanks,
and the name then of dollar signs. -/
def ofArgument (argument : String) : Except VariableError Variable :=
  match Text.splitFirst? '=' argument with
  | none => .error (.notPair argument)
  | some (left, right) =>
    let name := dropDollars (Text.trim left)
    let typeName := Text.trim right
    if name.isEmpty || typeName.isEmpty then .error (.incomplete argument)
    else .ok ⟨name, typeName⟩

end Variable

end FragmentAssembly
