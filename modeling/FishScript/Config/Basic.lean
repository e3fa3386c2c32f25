/-
# Lint configurations

A configuration says of every code whether it is reported and how severely. It is applied to the
diagnostics of a finished pass; the rules themselves always run.
-/
import FishScript.Diagnostic.Basic

namespace FishScript

/-- Which codes are not reported, and at which severities the others are. -/
structure LintConfig where
  /-- The code is not reported. -/
  disabled : Code → Bool
  /-- The severity of a code, where it is not the default one. -/
  level? : Code → Option Severity

namespace LintConfig

/-- Everything is reported at its default severity. -/
def default : LintConfig := ⟨fun _ => false, fun _ => none⟩

@[ext] theorem ext_codes {a b : LintConfig} (hd : ∀ c, a.disabled c = b.disabled c)
    (hl : ∀ c, a.level? c = b.level? c) : a = b := by
  cases a
  cases b
  simp only [LintConfig.mk.injEq]
  exact ⟨funext hd, funext hl⟩

/-- Two configurations are equal when they say the same of the ten codes. -/
instance : DecidableEq LintConfig := fun a b =>
  decidable_of_iff (∀ c ∈ Code.all, a.disabled c = b.disabled c ∧ a.level? c = b.level? c)
    ⟨fun h => ext_codes (fun c => (h c (Code.mem_all c)).1) (fun c => (h c (Code.mem_all c)).2),
      fun h _ _ => h ▸ ⟨rfl, rfl⟩⟩

/-- The code is reported. -/
def isEnabled (config : LintConfig) (code : Code) : Bool := !config.disabled code

/-- The severity at which a code is reported. -/
def severityOf (config : LintConfig) (code : Code) : Severity :=
  (config.level? code).getD code.defaultSeverity

/-- Stop reporting a code. -/
def disable (config : LintConfig) (code : Code) : LintConfig :=
  { config with disabled := fun c => c == code || config.disabled c }

/-- Report a code at a severity of its own. -/
def setSeverity (config : LintConfig) (code : Code) (severity : Severity) : LintConfig :=
  { config with level? := fun c => if c = code then some severity else config.level? c }

/-- The second configuration laid over the first. -/
def merge (config top : LintConfig) : LintConfig :=
  ⟨fun c => config.disabled c || top.disabled c, fun c => (top.level? c).or (config.level? c)⟩

/-- Leave out what is not reported and give the rest its severity. -/
def apply (config : LintConfig) (diagnostics : List Diagnostic) : List Diagnostic :=
  (diagnostics.filter (config.isEnabled ·.code)).map fun d =>
    d.withSeverity (config.severityOf d.code)

end LintConfig

end FishScript
