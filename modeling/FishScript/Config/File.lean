/-
# Config files

A config file lists codes that are not reported and gives codes their severities. In both places
a code is named by its name or its number.
-/
import FishScript.Config.Basic
import FishScript.Toml.Reader

namespace FishScript

/-- A code as a config file names it. -/
inductive CodeEntry
  /-- By its number. -/
  | number (n : Nat)
  /-- By a text. -/
  | text (t : Text)
deriving DecidableEq, Repr

namespace CodeEntry

/-- The code that is named. -/
def code : CodeEntry → Except UnknownCode Code
  | .number n => Code.ofText (Text.ofNat n)
  | .text t => Code.ofText t

end CodeEntry

/-- What a config file lists. -/
structure ConfigFile where
  /-- The codes that are not reported, in the order of the file. -/
  disable : List CodeEntry
  /-- The texts that name codes, each with the severity of its code. No text stands twice. -/
  severity : List (Text × Severity)
deriving DecidableEq, Repr

/-- Why a config file has no meaning. -/
inductive ConfigError
  /-- It is no config file at all. -/
  | malformed
  /-- It names a code that there is not. -/
  | unknownCode (e : UnknownCode)
deriving DecidableEq, Repr

namespace ConfigFile

/-- The codes of all entries, or the first entry that names none. -/
def disabledCodes (f : ConfigFile) : Except UnknownCode (List Code) := f.disable.mapM CodeEntry.code

/-- The severities in the order of the texts that name their codes. -/
def sortedSeverity (f : ConfigFile) : List (Text × Severity) :=
  f.severity.mergeSort fun a b => Text.le a.1 b.1

/-- The codes with a severity, or the first text in order that names none. -/
def levels (f : ConfigFile) : Except UnknownCode (List (Code × Severity)) :=
  f.sortedSeverity.mapM fun (t, severity) => (·, severity) <$> Code.ofText t

/-- The configuration a file describes. Where several texts name one code, the last one in order
counts. -/
def config (f : ConfigFile) : Except UnknownCode LintConfig := do
  let codes ← f.disabledCodes
  let levels ← f.levels
  return ⟨fun c => codes.contains c, fun c => (levels.findRev? (·.1 == c)).map Prod.snd⟩

/-! ## Reading -/

/-- The entry that a value stands for. -/
def entryOf? : Toml.Value → Option CodeEntry
  | .integer n => if 0 ≤ n ∧ n < 65536 then some (.number n.toNat) else none
  | .text t => some (.text t)
  | _ => none

/-- The severity that a value stands for: its name, or a table with this name as its only key and
nothing under it. -/
def severityOf? : Toml.Value → Option Severity
  | .text t => Severity.ofName? t
  | .table _ [(key, .array [])] => Severity.ofName? key
  | .table _ [(key, .table _ [])] => Severity.ofName? key
  | _ => none

/-- The list of entries that a value stands for. -/
def disableOf? : Toml.Value → Option (List CodeEntry)
  | .array items => items.mapM entryOf?
  | _ => none

/-- The severities that a value stands for. -/
def severitiesOf? : Toml.Value → Option (List (Text × Severity))
  | .table _ entries => entries.mapM fun (key, value) => (key, ·) <$> severityOf? value
  | _ => none

/-- The config file with one more top-level entry. -/
def withEntry? (f : ConfigFile) (key : Text) (value : Toml.Value) : Option ConfigFile :=
  if key == "disable".toList then (disableOf? value).map fun disable => { f with disable }
  else if key == "severity".toList then
    (severitiesOf? value).map fun severity => { f with severity }
  else none

/-- The config file that a document holds, if it holds nothing else. -/
def ofDocument? (entries : List (Text × Toml.Value)) : Option ConfigFile :=
  entries.foldlM (fun f (key, value) => f.withEntry? key value) ⟨[], []⟩

end ConfigFile

namespace LintConfig

/-- The configuration that the text of a config file describes. -/
def ofToml (t : Text) : Except ConfigError LintConfig :=
  match (Toml.document? t).bind ConfigFile.ofDocument? with
  | none => .error .malformed
  | some file => file.config.mapError .unknownCode

end LintConfig

end FishScript
