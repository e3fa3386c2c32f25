/-
# Configs filter and regrade

What a config makes of a diagnostic depends on the code alone, and it never asks for the severity
that the diagnostic came with. So a config that lets through no more than another one makes the same
of diagnostics whether or not the other one was applied to them before (`apply_apply_of_enabled`),
and what it makes of the diagnostics of some codes is told by what it says of these
(`filter_apply_congr`). Of two layers the upper one has the last word: it leaves out what it
disables of what the lower one lets through and regrades what it says something about
(`merge_apply`). Diagnostics leave a pass with the severities of their codes
(`severity_of_mem_diagnose`), to which the default config has nothing to add. So the report of a
script under a config is the config applied to its report under the default one
(`apply_check_merge`).
-/
import Mathlib
import FishScript.Report

namespace FishScript

namespace LintConfig

variable {config below : LintConfig} {ds : List Diagnostic}

/-! ## Layers -/

theorem merge_assoc (a b c : LintConfig) : (a.merge b).merge c = a.merge (b.merge c) := by
  refine ext_codes (fun code => ?_) fun code => ?_
  · exact Bool.or_assoc ..
  · exact Option.or_assoc.symm

theorem default_merge (a : LintConfig) : default.merge a = a :=
  ext_codes (fun _ => Bool.false_or _) fun _ => Option.or_none

theorem merge_default (a : LintConfig) : a.merge default = a :=
  ext_codes (fun _ => Bool.or_false _) fun _ => Option.none_or

lemma isEnabled_merge (a b : LintConfig) (code : Code) :
    (a.merge b).isEnabled code = (a.isEnabled code && b.isEnabled code) := Bool.not_or ..

lemma isEnabled_of_merge {a b : LintConfig} {code : Code}
    (h : (a.merge b).isEnabled code = true) :
    a.isEnabled code = true ∧ b.isEnabled code = true := by
  rwa [isEnabled_merge, Bool.and_eq_true_iff] at h

/-! ## Diagnostics -/

/-- A config does not care what another one has done before, if that one has left out nothing that
it lets through. -/
theorem apply_apply_of_enabled
    (h : ∀ code, config.isEnabled code = true → below.isEnabled code = true)
    (ds : List Diagnostic) : config.apply (below.apply ds) = config.apply ds := by
  have hfilter : (ds.filter (below.isEnabled ·.code)).filter (config.isEnabled ·.code) =
      ds.filter (config.isEnabled ·.code) := by
    rw [List.filter_filter]
    refine List.filter_congr fun d _ => ?_
    cases hd : config.isEnabled d.code with
    | false => rfl
    | true => rw [h d.code hd]; rfl
  calc config.apply (below.apply ds)
      = ((ds.filter (below.isEnabled ·.code)).filter (config.isEnabled ·.code)).map
          fun d => d.withSeverity (config.severityOf d.code) := by
        rw [apply, apply, List.filter_map, List.map_map]
        rfl
    _ = config.apply ds := by rw [hfilter]; rfl

theorem apply_apply (config : LintConfig) (ds : List Diagnostic) :
    config.apply (config.apply ds) = config.apply ds := apply_apply_of_enabled (fun _ h => h) ds

/-- A config leaves out the diagnostics of the codes that it disables. Of the others it keeps
everything but the severity. -/
lemma forall₂_apply (config : LintConfig) (ds : List Diagnostic) :
    List.Forall₂ (fun d d' => d'.code = d.code ∧ d'.span = d.span ∧ d'.message = d.message ∧
        d'.severity = (config.level? d.code).getD d.code.defaultSeverity)
      (ds.filter fun d => !config.disabled d.code) (config.apply ds) :=
  List.forall₂_map_right_iff.2 (List.forall₂_same.2 fun _ _ => ⟨rfl, rfl, rfl, rfl⟩)

lemma apply_disable (config : LintConfig) (code : Code) (ds : List Diagnostic) :
    (config.disable code).apply ds = (config.apply ds).filter (·.code != code) := by
  rw [apply, apply, List.filter_map, List.filter_filter]
  congr 1
  refine List.filter_congr fun d _ => ?_
  exact Bool.not_or ..

lemma apply_setSeverity (config : LintConfig) (code : Code) (severity : Severity)
    (ds : List Diagnostic) : (config.setSeverity code severity).apply ds =
      (config.apply ds).map fun d => if d.code = code then d.withSeverity severity else d := by
  rw [apply, apply, List.map_map]
  refine List.map_congr_left fun d _ => ?_
  by_cases hcode : d.code = code <;>
    simp [severityOf, setSeverity, Diagnostic.withSeverity, hcode]

/-- A layered config makes of diagnostics what the upper layer makes of those that the lower one
has dealt with, which keep their severities where the upper layer says nothing about them. -/
theorem merge_apply (a b : LintConfig) (ds : List Diagnostic) : (a.merge b).apply ds =
    ((a.apply ds).filter fun d => !b.disabled d.code).map fun d =>
      match b.level? d.code with
      | some severity => d.withSeverity severity
      | none => d := by
  rw [apply, apply, List.filter_map, List.filter_filter, List.map_map]
  have hfilter : ds.filter ((a.merge b).isEnabled ·.code) = ds.filter fun d =>
      !b.disabled d.code && a.isEnabled d.code :=
    List.filter_congr fun d _ => by rw [isEnabled_merge, Bool.and_comm]; rfl
  rw [hfilter]
  refine List.map_congr_left fun d _ => ?_
  cases hlevel : b.level? d.code <;>
    simp [severityOf, merge, Diagnostic.withSeverity, hlevel]

/-- What is left of the diagnostics of some codes depends on what the config says of these. -/
lemma filter_apply_congr {other : LintConfig} {p : Code → Bool}
    (h : ∀ code, p code = true → config.isEnabled code = other.isEnabled code ∧
      config.severityOf code = other.severityOf code) (ds : List Diagnostic) :
    (config.apply ds).filter (p ·.code) = (other.apply ds).filter (p ·.code) := by
  have happly (c : LintConfig) : (c.apply ds).filter (p ·.code) =
      ((ds.filter (p ·.code)).filter (c.isEnabled ·.code)).map
        fun d => d.withSeverity (c.severityOf d.code) := by
    rw [apply, List.filter_map, List.filter_comm]
    rfl
  have hof : ∀ d ∈ ds.filter (p ·.code), config.isEnabled d.code = other.isEnabled d.code ∧
      config.severityOf d.code = other.severityOf d.code := fun d hd =>
    h d.code (List.mem_filter.1 hd).2
  rw [happly, happly, List.filter_congr fun d hd => (hof d hd).1]
  refine List.map_congr_left fun d hd => ?_
  rw [(hof d (List.mem_filter.1 hd).1).2]

lemma default_apply (h : ∀ d ∈ ds, d.severity = d.code.defaultSeverity) :
    default.apply ds = ds := by
  have hall : ds.filter (default.isEnabled ·.code) = ds := List.filter_eq_self.2 fun _ _ => rfl
  have hsame : ∀ d ∈ ds, d.withSeverity (default.severityOf d.code) = id d := fun d hd => by
    rw [show default.severityOf d.code = d.severity from (h d hd).symm]
    rfl
  rw [apply, hall, List.map_congr_left hsame, List.map_id]

end LintConfig

/-! ## Scripts -/

lemma Tree.severity_of_mem_diagnose {t : Tree} {document : Document} {ds : List Diagnostic}
    (h : t.diagnose document = .ok ds) : ∀ d ∈ ds, d.severity = d.code.defaultSeverity := by
  obtain ⟨p, hp, rfl⟩ : ∃ p, t.pass document .standard = .ok p ∧ p.diagnostics = ds := by
    rw [diagnose] at h
    cases hp : t.pass document .standard with
    | error r => rw [hp] at h; cases h
    | ok p => rw [hp] at h; exact ⟨p, rfl, Except.ok.inj h⟩
  rw [pass] at hp
  cases hcheck : document.check with
  | error r => rw [hcheck] at hp; cases hp
  | ok =>
    cases hroot : t.root with
    | error r => rw [hcheck, hroot] at hp; cases hp
    | ok root =>
      rw [hcheck, hroot] at hp
      obtain rfl := Except.ok.inj hp
      intro d hd
      obtain ⟨f, -, rfl⟩ := List.mem_map.1 hd
      rfl

/-- The report without the diagnostics of a code. -/
def Report.without (code : Code) (r : Report) : Report :=
  { r with diagnostics := r.diagnostics.filter (·.code != code) }

namespace Script

/-- The diagnostics of a script, as the pass makes them. -/
def emitted (s : Script) : Except Refusal (List Diagnostic) :=
  (parse s.source).bind (·.diagnose s.document)

variable {s : Script}

lemma severity_of_mem_emitted {ds : List Diagnostic} (h : s.emitted = .ok ds) :
    ∀ d ∈ ds, d.severity = d.code.defaultSeverity := by
  rw [emitted] at h
  cases hparse : parse s.source with
  | error r => rw [hparse] at h; cases h
  | ok t => rw [hparse] at h; exact Tree.severity_of_mem_diagnose h

lemma check_eq_emitted (s : Script) (config : LintConfig) : s.check config =
    (s.emitted.map fun ds => Report.mk s.label (config.apply ds)).mapError
      (CheckFailure.mk s.label) := by
  rw [check, emitted]
  cases (parse s.source).bind (·.diagnose s.document) <;> rfl

lemma check_default (s : Script) :
    s.check .default = (s.emitted.map (Report.mk s.label)).mapError (CheckFailure.mk s.label) := by
  rw [check_eq_emitted]
  cases hds : s.emitted with
  | error r => rfl
  | ok ds =>
    rw [Except.map, LintConfig.default_apply (severity_of_mem_emitted hds)]
    rfl

lemma check_eq_map (s : Script) (config : LintConfig) : s.check config =
    (s.check .default).map fun r => { r with diagnostics := config.apply r.diagnostics } := by
  rw [check_default, check_eq_emitted]
  cases s.emitted <;> rfl

/-- Configs that say the same of all other codes report the same of these. -/
lemma map_without_check {config other : LintConfig} {code : Code}
    (h : ∀ code', (code' != code) = true → config.isEnabled code' = other.isEnabled code' ∧
      config.severityOf code' = other.severityOf code') (s : Script) :
    (s.check config).map (Report.without code) = (s.check other).map (Report.without code) := by
  rw [check_eq_emitted, check_eq_emitted]
  cases s.emitted with
  | error r => rfl
  | ok ds =>
    have hothers := LintConfig.filter_apply_congr h ds
    exact congrArg (fun ds => Except.ok (Report.mk s.label ds)) hothers

lemma map_without_check_disable (s : Script) (config : LintConfig) (code : Code) :
    (s.check (config.disable code)).map (Report.without code) =
      (s.check config).map (Report.without code) := by
  refine map_without_check (fun code' hcode => ?_) s
  refine ⟨?_, rfl⟩
  have hne : (code' == code) = false := by simpa using hcode
  simp [LintConfig.isEnabled, LintConfig.disable, hne]

lemma map_without_check_setSeverity (s : Script) (config : LintConfig) (code : Code)
    (severity : Severity) : (s.check (config.setSeverity code severity)).map (Report.without code) =
      (s.check config).map (Report.without code) := by
  refine map_without_check (fun code' hcode => ?_) s
  refine ⟨rfl, ?_⟩
  have hne : code' ≠ code := by simpa using hcode
  simp [LintConfig.severityOf, LintConfig.setSeverity, hne]

end Script

/-- Configs act on the diagnostics that a pass makes, and on nothing else. The report of a script
under a config is the config applied to its report under the default one, which is what the pass
makes; so what is said of one code has no effect on the diagnostics of another one. A config leaves
out the diagnostics of the codes that it disables and changes nothing about the others but their
severities. Configs can be laid over one another in any grouping; the upper layer has the last word,
and it makes no difference whether one of the layers was applied to the diagnostics before. -/
theorem apply_check_merge :
    (∀ (s : Script) (config : LintConfig),
      s.check .default = (s.emitted.map (Report.mk s.label)).mapError (CheckFailure.mk s.label) ∧
      s.check config = (s.check .default).map
        (fun r => { r with diagnostics := config.apply r.diagnostics }) ∧
      ∀ code, (s.check (config.disable code)).map (Report.without code) =
          (s.check config).map (Report.without code) ∧
        ∀ severity, (s.check (config.setSeverity code severity)).map (Report.without code) =
          (s.check config).map (Report.without code)) ∧
    (∀ (config : LintConfig) (ds : List Diagnostic),
      List.Forall₂ (fun d d' => d'.code = d.code ∧ d'.span = d.span ∧ d'.message = d.message ∧
          d'.severity = (config.level? d.code).getD d.code.defaultSeverity)
        (ds.filter fun d => !config.disabled d.code) (config.apply ds) ∧
      ∀ code, (config.disable code).apply ds = (config.apply ds).filter (·.code != code) ∧
        ∀ severity, (config.setSeverity code severity).apply ds =
          (config.apply ds).map fun d => if d.code = code then d.withSeverity severity else d) ∧
    (∀ a b c : LintConfig, (a.merge b).merge c = a.merge (b.merge c)) ∧
    (∀ a : LintConfig, LintConfig.default.merge a = a ∧ a.merge .default = a) ∧
    ∀ (a b : LintConfig) (ds : List Diagnostic),
      (a.merge b).apply ds = (((a.apply ds).filter fun d => !b.disabled d.code).map fun d =>
        match b.level? d.code with
        | some severity => d.withSeverity severity
        | none => d) ∧
      a.apply (a.apply ds) = a.apply ds ∧
      (a.merge b).apply (a.apply ds) = (a.merge b).apply ds ∧
      (a.merge b).apply (b.apply ds) = (a.merge b).apply ds := by
  refine ⟨fun s config => ⟨s.check_default, s.check_eq_map config, fun code =>
      ⟨s.map_without_check_disable config code, s.map_without_check_setSeverity config code⟩⟩,
    fun config ds => ⟨config.forall₂_apply ds, fun code =>
      ⟨config.apply_disable code ds, fun severity => config.apply_setSeverity code severity ds⟩⟩,
    LintConfig.merge_assoc, fun a => ⟨a.default_merge, a.merge_default⟩,
    fun a b ds => ⟨a.merge_apply b ds, a.apply_apply ds, ?_, ?_⟩⟩
  · exact LintConfig.apply_apply_of_enabled (fun _ h => (LintConfig.isEnabled_of_merge h).1) ds
  · exact LintConfig.apply_apply_of_enabled (fun _ h => (LintConfig.isEnabled_of_merge h).2) ds

end FishScript
