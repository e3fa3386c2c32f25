/-
# Diagnostics

A diagnostic says what is wrong, how badly and where. It is shown either on one line or with its
place in the source and the line of the source on which it starts.
-/
import FishScript.Diagnostic.Code
import FishScript.Span

namespace FishScript

/-- A reported problem. -/
structure Diagnostic where
  /-- The kind of problem. -/
  code : Code
  /-- How badly it is reported. -/
  severity : Severity
  /-- The stretch of the source it is about. -/
  span : Span
  /-- The wording. -/
  message : Text
deriving DecidableEq, Repr

/-- A diagnostic cannot be shown because it starts inside a character. -/
structure SplitCharacter where
  /-- Where it starts. -/
  offset : Nat
deriving DecidableEq, Repr

/-- The line of the source around an offset, without its line feed. There is none at or after the
end of the source. -/
def contextLine (offset : Nat) (source : Text) : Except SplitCharacter (Option Text) :=
  if source.byteLength ≤ offset then .ok none
  else match source.skipBytes? offset with
    | none => .error ⟨offset⟩
    | some rest =>
      let before := source.take (source.length - rest.length)
      .ok (some ((before.reverse.takeWhile (· != '\n')).reverse ++ rest.takeWhile (· != '\n')))

namespace Diagnostic

/-- The name under which editors list the diagnostics. -/
def producer : String := "fishlint"

/-- A diagnostic with the severity and the wording of its code. -/
def ofCode (code : Code) (span : Span) : Diagnostic :=
  ⟨code, code.defaultSeverity, span, code.summary.toList⟩

/-- The diagnostic with another wording. -/
def withMessage (d : Diagnostic) (message : Text) : Diagnostic := { d with message }

/-- The diagnostic with another severity. -/
def withSeverity (d : Diagnostic) (severity : Severity) : Diagnostic := { d with severity }

/-- Severity, number and wording. -/
def display (d : Diagnostic) : Text :=
  d.severity.name.toList ++ " [".toList ++ Text.ofNat d.code.number ++ "]: ".toList ++ d.message

/-- The place of the diagnostic and what it says. -/
def header (d : Diagnostic) (source : Text) : Text :=
  (d.span.position source).format ++ ": ".toList ++ d.display

/-- What leads a quoted line of the source. -/
def contextLead : Text := "  | ".toList

/-- The header and, on a line of its own, the source line on which the diagnostic starts. -/
def format (d : Diagnostic) (source : Text) : Except SplitCharacter Text :=
  (contextLine d.span.start source).map fun
    | none => d.header source
    | some line => d.header source ++ '\n' :: (contextLead ++ line)

end Diagnostic

end FishScript
