/-
FragmentAssembly/Log/Level.lean

Log levels.  A level lets through the lines of its own level and of every graver one;
`trace` lets everything through.
-/
import FragmentAssembly.Text.Blank

namespace FragmentAssembly

/-- How grave a log line is. -/
inductive LogLevel where
  | error
  | warn
  | info
  | debug
  | trace
deriving DecidableEq, Repr, Inhabited

namespace LogLevel

/-- How far down the scale a level stands, beginning with the gravest. -/
def rank : LogLevel → Nat
  | error => 0
  | warn => 1
  | info => 2
  | debug => 3
  | trace => 4

/-- The name that begins a log line. -/
def name : LogLevel → String
  | error => "ERROR"
  | warn => "WARN"
  | info => "INFO"
  | debug => "DEBUG"
  | trace => "TRACE"

/-- Whether lines of level `line` are written when `threshold` is set. -/
def enables (threshold line : LogLevel) : Bool :=
  line.rank ≤ threshold.rank

/-- The level that a setting names: blanks around it and the case of ASCII letters do
not matter. -/
def ofSetting? (setting : String) : Option LogLevel :=
  match (Text.trim setting).toLower with
  | "debug" => some debug
  | "verbose" => some debug
  | "info" => some info
  | "trace" => some trace
  | "warn" => some warn
  | "error" => some error
  | _ => none

@[simp] theorem enables_trace (line : LogLevel) : enables trace line = true := by
  cases line <;> rfl

end LogLevel

end FragmentAssembly
