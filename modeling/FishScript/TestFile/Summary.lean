/-
# Outcomes of test cases

Each case passes, fails because something else came of its input than was expected, or cannot be
run at all. The outcomes of a file are counted, and those that are no pass are kept.
-/
import FishScript.Text.Basic

namespace FishScript.TestFile

/-- How a case came out. -/
inductive Outcome
  /-- As expected. -/
  | pass
  /-- Otherwise. -/
  | fail (expected actual : Text)
  /-- The case could not be run. -/
  | error (message : Text)
deriving DecidableEq, Repr

namespace Outcome

/-- The outcome of a case that was to give one text and gave another. -/
def compare (expected actual : Text) : Outcome :=
  if expected = actual then .pass else .fail expected actual

/-- The case passed. -/
def isPass : Outcome → Bool
  | .pass => true
  | _ => false

end Outcome

/-- A case that did not pass. -/
structure Failure where
  /-- Its name. -/
  name : Text
  /-- Where its block starts. -/
  line : Nat
  /-- How it came out. -/
  outcome : Outcome
deriving DecidableEq, Repr

/-- The outcomes of several cases. -/
structure Summary where
  /-- The number of cases that passed. -/
  passed : Nat
  /-- The number of cases that failed. -/
  failed : Nat
  /-- The number of cases that could not be run. -/
  errors : Nat
  /-- The cases that did not pass, in the order in which they were run. -/
  failures : List Failure
deriving DecidableEq, Repr

namespace Summary

/-- No cases. -/
def empty : Summary := ⟨0, 0, 0, []⟩

/-- The summary with the outcome of one more case. -/
def record (s : Summary) (name : Text) (line : Nat) (outcome : Outcome) : Summary :=
  match outcome with
  | .pass => { s with passed := s.passed + 1 }
  | .fail .. =>
    { s with failed := s.failed + 1, failures := s.failures ++ [⟨name, line, outcome⟩] }
  | .error _ =>
    { s with errors := s.errors + 1, failures := s.failures ++ [⟨name, line, outcome⟩] }

/-- The number of cases. -/
def total (s : Summary) : Nat := s.passed + s.failed + s.errors

/-- No case failed. -/
def allPassed (s : Summary) : Bool := s.failures.isEmpty

/-! ## Display -/

/-- The line before and after a summary. -/
def rule : Text := List.replicate 60 '═'

/-- The lines of a text, each with spaces before it. -/
def indented (t : Text) : Text :=
  Text.joined ['\n'] (t.lines.map fun line => "      ".toList ++ line)

/-- The display of an outcome that is no pass. -/
def displayOutcome : Outcome → Text
  | .pass => []
  | .fail expected actual =>
    "    expected:\n".toList ++ indented expected ++ "\n    actual:\n".toList ++ indented actual
      ++ ['\n']
  | .error message => "    error: ".toList ++ message ++ ['\n']

/-- The display of a case that did not pass. -/
def displayFailure (f : Failure) : Text :=
  "\n  ".toList ++ f.name ++ " (line ".toList ++ Text.ofNat f.line ++ ")\n".toList
    ++ displayOutcome f.outcome

/-- The counts, and the cases that did not pass. -/
def display (s : Summary) : Text :=
  '\n' :: (rule ++ '\n' :: (Text.ofNat s.total ++ " cases: ".toList ++ Text.ofNat s.passed
    ++ " passed, ".toList ++ Text.ofNat s.failed ++ " failed, ".toList ++ Text.ofNat s.errors
    ++ " errors\n".toList ++ s.failures.flatMap displayFailure ++ rule ++ ['\n']))

end Summary

end FishScript.TestFile
