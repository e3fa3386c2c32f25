/-
# The table of diagnostic codes

Every problem that can be reported has a code with a fixed number and a fixed name. The
thousands of the number group the codes by the family of rules that report them.
-/
import FishScript.Text.Basic

namespace FishScript

/-- How loudly a problem is reported. -/
inductive Severity
  /-- A hint, usually about style. -/
  | info
  /-- Probably a mistake, though the script runs. -/
  | warning
  /-- The script is malformed. -/
  | error
deriving DecidableEq, Repr

namespace Severity

/-- The name of a severity in reports and config files. -/
def name : Severity → String
  | .info => "info"
  | .warning => "warning"
  | .error => "error"

/-- All severities, the mildest first. -/
def all : List Severity := [.info, .warning, .error]

/-- The severity with a given name. -/
def ofName? (t : Text) : Option Severity := all.find? (·.name.toList == t)

end Severity

/-- What kind of problem a diagnostic reports. -/
inductive Code
  /-- A block without its closing `end`. -/
  | missingEnd
  /-- An `end` with nothing to close. -/
  | extraEnd
  /-- Any other malformed source. -/
  | syntaxError
  /-- A statement that never runs. -/
  | unreachableCode
  /-- A function defined twice in one document. -/
  | duplicateFunctionName
  /-- An autoloaded document whose first function is not the expected one. -/
  | missingAutoloadedFunctionName
  /-- A helper function whose name does not start with an underscore. -/
  | privateHelperFunction
  /-- A variable whose value outlives the session. -/
  | universalVariable
  /-- A variable with a name ending in `PATH` set without `--path`. -/
  | pathVariable
  /-- The flag `--path` on a variable with another name. -/
  | pathFlag
deriving DecidableEq, Repr

namespace Code

/-- All codes in the order of the table. -/
def all : List Code :=
  [.missingEnd, .extraEnd, .syntaxError, .unreachableCode, .duplicateFunctionName,
    .missingAutoloadedFunctionName, .privateHelperFunction, .universalVariable, .pathVariable,
    .pathFlag]

theorem mem_all (code : Code) : code ∈ all := by cases code <;> decide

/-- The number of a code. -/
def number : Code → Nat
  | .missingEnd => 1001
  | .extraEnd => 1002
  | .syntaxError => 1003
  | .unreachableCode => 2001
  | .duplicateFunctionName => 3001
  | .missingAutoloadedFunctionName => 3002
  | .privateHelperFunction => 3003
  | .universalVariable => 4001
  | .pathVariable => 4002
  | .pathFlag => 4003

/-- The name of a code in reports, config files and on the command line. -/
def name : Code → String
  | .missingEnd => "missingEnd"
  | .extraEnd => "extraEnd"
  | .syntaxError => "syntaxError"
  | .unreachableCode => "unreachableCode"
  | .duplicateFunctionName => "duplicateFunctionName"
  | .missingAutoloadedFunctionName => "missingAutoloadedFunctionName"
  | .privateHelperFunction => "privateHelperFunction"
  | .universalVariable => "universalVariable"
  | .pathVariable => "pathVariable"
  | .pathFlag => "pathFlag"

/-- The severity of a code where no config says otherwise. -/
def defaultSeverity : Code → Severity
  | .missingEnd | .extraEnd | .syntaxError => .error
  | .privateHelperFunction => .info
  | _ => .warning

/-- What a code means, in words that name nothing of the source. -/
def summary : Code → String
  | .missingEnd => "missing 'end' to close this block"
  | .extraEnd => "'end' without a matching block"
  | .syntaxError => "syntax error"
  | .unreachableCode => "unreachable code"
  | .duplicateFunctionName => "function is defined more than once"
  | .missingAutoloadedFunctionName =>
    "autoloaded file must define a function matching its file name"
  | .privateHelperFunction => "helper functions should start with '_'"
  | .universalVariable => "universal variables persist across all sessions"
  | .pathVariable => "variables ending in PATH should be set with --path"
  | .pathFlag => "--path is meant for variables ending in PATH"

/-- A text names a code by the code's name or by its number. -/
def isNamedBy (t : Text) (code : Code) : Bool :=
  code.name.toList == t || t.code16? == some code.number

/-- The code that a text names, white space around it aside. -/
def ofText? (t : Text) : Option Code := all.find? (isNamedBy t.trim)

end Code

/-- A text, already trimmed, that names no code. -/
structure UnknownCode where
  /-- The text. -/
  text : Text
deriving DecidableEq, Repr

namespace UnknownCode

/-- The wording of the error. -/
def message (e : UnknownCode) : Text := "unknown diagnostic code: ".toList ++ e.text

end UnknownCode

namespace Code

/-- The code that a text names, or the trimmed text that names none. -/
def ofText (t : Text) : Except UnknownCode Code :=
  match ofText? t with
  | some code => .ok code
  | none => .error ⟨t.trim⟩

end Code

end FishScript
