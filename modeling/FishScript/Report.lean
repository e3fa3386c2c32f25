/-
# Reports

A report is what a config leaves of the diagnostics of one script. It can be shown as lines of
text, two or one for each diagnostic, and as a part of a JSON document.
-/
import FishScript.Config.Basic
import FishScript.Document
import FishScript.Grammar.Parser
import FishScript.Json.Value
import FishScript.Rules.Pass

namespace FishScript

/-- A script that is to be checked. -/
structure Script where
  /-- What it is called in reports. -/
  label : Text
  /-- Its text. -/
  source : Text
  /-- What is known of it besides its text. -/
  document : Document
deriving DecidableEq, Repr

/-- What is reported of a script. -/
structure Report where
  /-- What the script is called. -/
  path : Text
  /-- The problems, in the order in which the rules found them. -/
  diagnostics : List Diagnostic
deriving DecidableEq, Repr

/-- Why a script has no report. -/
structure CheckFailure where
  /-- What the script is called. -/
  label : Text
  /-- Why it was refused. -/
  cause : Refusal
deriving DecidableEq, Repr

namespace CheckFailure

/-- The wording of the failure, before that of its cause. It is the parser that may leave nodes open
or close too many; anything else is refused by the rules. -/
def message (e : CheckFailure) : Text :=
  match e.cause with
  | .unclosedNodes _ | .noOpenNode => "Failed to parse ".toList ++ e.label
  | .emptyTree | .unknownNode _ | .missingAutoloadName => "Failed to check ".toList ++ e.label

end CheckFailure

namespace Script

/-- The report of a script under a config. -/
def check (s : Script) (config : LintConfig) : Except CheckFailure Report :=
  match (parse s.source).bind (·.diagnose s.document) with
  | .ok ds => .ok ⟨s.label, config.apply ds⟩
  | .error r => .error ⟨s.label, r⟩

end Script

/-! ## Lines of text -/

namespace Severity

/-- A text between the terminal's codes for bold red, yellow or blue. -/
def paint (s : Severity) (t : Text) : Text :=
  match s with
  | .error => "\x1b[1m\x1b[31m".toList ++ t ++ "\x1b[39m\x1b[0m".toList
  | .warning => "\x1b[33m".toList ++ t ++ "\x1b[39m".toList
  | .info => "\x1b[34m".toList ++ t ++ "\x1b[39m".toList

end Severity

namespace Report

/-- A problem is reported as an error. -/
def hasErrors (r : Report) : Bool := r.diagnostics.any (·.severity == .error)

/-- The lines of a diagnostic of a script. Only the first line is ever coloured. -/
def block (path source : Text) (color : Bool) (d : Diagnostic) : Except SplitCharacter Text :=
  (d.format source).map fun shown =>
    let header := path ++ ':' :: shown.takeWhile (· != '\n')
    (if color then d.severity.paint header else header) ++ shown.dropWhile (· != '\n') ++ ['\n']

/-- The lines of a report of a script with the given text. -/
def render (r : Report) (source : Text) (color : Bool) : Except SplitCharacter Text :=
  (r.diagnostics.mapM (block r.path source color)).map List.flatten

/-- The number of problems with a severity in reports. -/
def count (s : Severity) (ds : List Diagnostic) : Nat := ds.countP (·.severity == s)

/-- The line that counts the problems of several reports, if there are any. -/
def summary? (rs : List Report) : Option Text :=
  let ds := rs.flatMap diagnostics
  if ds.isEmpty then none
  else some (Text.ofNat ds.length ++ (if ds.length = 1 then " problem (" else " problems (").toList
    ++ Text.ofNat (count .error ds) ++ " errors, ".toList
    ++ Text.ofNat (count .warning ds) ++ " warnings, ".toList
    ++ Text.ofNat (count .info ds) ++ " infos)".toList)

end Report

/-! ## JSON -/

namespace Diagnostic

/-- A diagnostic as an object. -/
def json (d : Diagnostic) : Json.Value :=
  .object [
    ("code".toList, .text d.code.name.toList),
    ("severity".toList, .text d.severity.name.toList),
    ("span".toList, .object [
      ("start".toList, .number d.span.start),
      ("end".toList, .number d.span.stop)]),
    ("message".toList, .text d.message),
    ("source".toList, .text producer.toList)]

end Diagnostic

namespace Report

/-- A report as an object. -/
def json (r : Report) : Json.Value :=
  .object [
    ("path".toList, .text r.path),
    ("diagnostics".toList, .array (r.diagnostics.map Diagnostic.json))]

end Report

end FishScript
