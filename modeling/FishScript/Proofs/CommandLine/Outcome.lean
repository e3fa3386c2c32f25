/-
# What comes of a run

A run prints nothing before everything it needs has been read and every script has been checked.
What is left to do then never fails: every source has a tree, and every diagnostic can be shown. So
a run that fails has printed nothing, and of the others only the config and the diagnostics tell
with which status they end (`run_outcome`). The config is that of one file (`configPath?`): if this
file makes no sense the run fails, and no other one is tried.
-/
import Mathlib
import FishScript.CommandLine.Run
import FishScript.Proofs.Lists
import FishScript.Proofs.Rules.Printing

namespace FishScript

/-! ## One script -/

namespace LintConfig

variable {config : LintConfig}

lemma isEnabled_foldl_disable (codes : List Code) (code : Code) :
    (codes.foldl disable config).isEnabled code = true ↔
      config.isEnabled code = true ∧ code ∉ codes := by
  induction codes generalizing config with
  | nil => simp
  | cons c codes ih =>
    rw [List.foldl_cons, ih, List.mem_cons, not_or, ← and_assoc]
    refine and_congr_left fun _ => ?_
    simp [isEnabled, disable, and_comm]

lemma severityOf_foldl_disable (codes : List Code) (code : Code) :
    (codes.foldl disable config).severityOf code = config.severityOf code := by
  induction codes generalizing config with
  | nil => rfl
  | cons c codes ih =>
    rw [List.foldl_cons, ih]
    rfl

end LintConfig

lemma Report.hasErrors_apply {label : Text} {config : LintConfig} {ds : List Diagnostic} :
    (Report.mk label (config.apply ds)).hasErrors = true ↔
      ∃ d ∈ ds, config.isEnabled d.code = true ∧ config.severityOf d.code = .error := by
  simp [hasErrors, LintConfig.apply, Diagnostic.withSeverity]

namespace Script

/-- A diagnostic of the script is an error by a config, and its code is enabled by the config and
not disabled besides. -/
def HasErrors (config : LintConfig) (disabled : List Code) (s : Script) : Prop :=
  ∃ ds, (parse s.source).bind (·.diagnose s.document) = .ok ds ∧ ∃ d ∈ ds,
    config.isEnabled d.code = true ∧ d.code ∉ disabled ∧ config.severityOf d.code = .error

variable {s : Script} {config : LintConfig}

lemma check_eq_ok {r : Report} : s.check config = .ok r ↔
    ∃ ds, (parse s.source).bind (·.diagnose s.document) = .ok ds ∧
      r = ⟨s.label, config.apply ds⟩ := by
  rw [check]
  cases (parse s.source).bind (·.diagnose s.document) with
  | ok ds => simp [eq_comm]
  | error e => simp

lemma hasErrors_report {disabled : List Code} {r : Report}
    (h : s.check (disabled.foldl .disable config) = .ok r) :
    r.hasErrors = true ↔ s.HasErrors config disabled := by
  obtain ⟨ds, hds, rfl⟩ := check_eq_ok.1 h
  simp only [HasErrors, hds, Report.hasErrors_apply, LintConfig.isEnabled_foldl_disable,
    LintConfig.severityOf_foldl_disable, Except.ok.injEq, exists_eq_left', and_assoc]

lemma exists_diagnose (hd : s.document.check = .ok ()) :
    ∃ ds, (parse s.source).bind (·.diagnose s.document) = .ok ds ∧
      ∀ d ∈ ds, d.span.Within s.source := by
  obtain ⟨ds, hds, hwithin⟩ := exists_diagnose_within s.source hd
  refine ⟨ds, ?_, hwithin⟩
  rw [parse_eq]
  exact hds

lemma within_of_mem_report (hd : s.document.check = .ok ()) {r : Report}
    (hr : s.check config = .ok r) : ∀ d ∈ r.diagnostics, d.span.Within s.source := by
  obtain ⟨ds, hds, hwithin⟩ := exists_diagnose hd
  obtain ⟨ds', hds', rfl⟩ := check_eq_ok.1 hr
  rw [hds, Except.ok.injEq] at hds'
  intro d hd
  obtain ⟨d', hd', rfl⟩ := List.mem_map.1 hd
  exact hwithin d' (hds' ▸ List.mem_of_mem_filter hd')

lemma exists_check_error (hd : s.document.check ≠ .ok ()) : ∃ e, s.check config = .error e := by
  cases hcheck : s.document.check with
  | ok => exact absurd hcheck hd
  | error r =>
    have hbind : (parse s.source).bind (·.diagnose s.document) = .error r := by
      rw [parse_eq]
      show Except.map _ (Tree.pass _ _ _) = _
      rw [Tree.pass, hcheck]
      rfl
    refine ⟨⟨s.label, r⟩, ?_⟩
    rw [check, hbind]

end Script

namespace Report

lemma exists_render {r : Report} {source : Text}
    (h : ∀ d ∈ r.diagnostics, d.span.Within source) (color : Bool) :
    ∃ t, r.render source color = .ok t := by
  obtain ⟨blocks, hblocks, -⟩ := exists_mapM_ok (f := block r.path source color) fun d hd => by
    obtain ⟨line, -, hformat⟩ := (h d hd).printable.shown
    rw [block, hformat]
    exact ⟨_, rfl⟩
  rw [render, hblocks]
  exact ⟨_, rfl⟩

end Report

namespace CommandLine

/-! ## Programs -/

namespace Program

variable {α β : Type} {p : Program α} {f : α → Program β} {o o' o'' : Output}

/-- With `o` printed before, the program ends with the result `r`, and then `o'` is printed. -/
def Yields (p : Program α) (o : Output) (r : Except Failure α) (o' : Output) : Prop :=
  p.run.run o = (r, o')

lemma yields_settled (r : Except Failure α) : (settled r).Yields o r o := rfl

lemma Yields.bind {a : α} {r : Except Failure β} (hp : p.Yields o (.ok a) o')
    (hf : (f a).Yields o' r o'') : (p >>= f).Yields o r o'' := by
  rw [Yields, ExceptT.run_bind, StateT.run_bind, hp]
  exact hf

lemma Yields.bind_error {e : Failure} (hp : p.Yields o (.error e) o') :
    (p >>= f).Yields o (.error e) o' := by
  rw [Yields, ExceptT.run_bind, StateT.run_bind, hp]
  rfl

lemma yields_forM {line : α → Except Failure Text} {xs : List α} {lines : List Text}
    (h : List.Forall₂ (fun x t => line x = .ok t) xs lines) :
    Program.Yields (xs.forM fun x => do printOut (← settled (line x))) o (.ok ())
      { o with out := o.out ++ lines.flatten } := by
  induction h generalizing o with
  | nil =>
    rw [List.flatten_nil, List.append_nil]
    rfl
  | @cons x t xs lines hline _ ih =>
    rw [List.flatten_cons, ← List.append_assoc]
    have hfirst : (settled (line x) >>= printOut).Yields o (.ok ())
        { o with out := o.out ++ t } := by
      rw [hline]
      rfl
    exact hfirst.bind ih

end Program

/-! ## The config -/

/-- Where the config stands: at the path that the arguments name, or else in the working directory,
or else where the user keeps one, if there is a file. -/
def configPath? (w : World) (args : Arguments) : Option Text :=
  args.config.or ((projectConfig :: w.userConfig.toList).find? w.hasFile)

section Config

variable {w : World} {args : Arguments} {path shown : Text} {base : LintConfig}

lemma mapError_eq_ok {α β γ : Type} {r : Except α γ} {f : α → β} {a : γ} :
    r.mapError f = .ok a ↔ r = .ok a := by
  cases r <;> simp [Except.mapError]

lemma toOption_eq_some {α β : Type} {r : Except α β} {a : β} :
    r.toOption = some a ↔ r = .ok a := by
  cases r <;> simp [Except.toOption]

lemma configAt_eq_ok : configAt w path shown = .ok base ↔
    ∃ t, w.readText path = .ok t ∧ LintConfig.ofToml t = .ok base := by
  rw [configAt]
  cases w.readText path with
  | ok t => simp [mapError_eq_ok]
  | error fault => simp

lemma loadedConfig_eq_ok (h : configPath? w args = some path) :
    loadedConfig w args = .ok base ↔
      ∃ t, w.readText path = .ok t ∧ LintConfig.ofToml t = .ok base := by
  rw [configPath?] at h
  rw [loadedConfig]
  cases hnamed : args.config with
  | some named =>
    rw [hnamed] at h
    obtain rfl : named = path := Option.some_inj.1 h
    exact mapError_eq_ok.trans configAt_eq_ok
  | none =>
    rw [hnamed, Option.none_or] at h
    refine mapError_eq_ok.trans ?_
    rw [foundConfig]
    by_cases hproject : w.hasFile projectConfig = true
    · rw [List.find?_cons_of_pos hproject] at h
      obtain rfl : projectConfig = path := Option.some_inj.1 h
      rw [if_pos hproject]
      exact configAt_eq_ok
    · rw [List.find?_cons_of_neg hproject] at h
      have huser : w.userConfig = some path := Option.mem_toList.1 (List.mem_of_find?_eq_some h)
      rw [if_neg hproject, huser, Option.filter_some_pos (List.find?_some h)]
      exact configAt_eq_ok

lemma loadedConfig_of_none (h : configPath? w args = none) :
    loadedConfig w args = .ok .default := by
  obtain ⟨hnamed, hfound⟩ := Option.or_eq_none_iff.1 h
  have hnone : ∀ path ∈ projectConfig :: w.userConfig.toList, w.hasFile path = false := by
    simpa only [List.find?_eq_none, Bool.not_eq_true] using hfound
  have hproject : w.hasFile projectConfig = false := hnone _ List.mem_cons_self
  have huser : w.userConfig.filter w.hasFile = none :=
    Option.filter_eq_none_iff.2 fun path hpath => by simp [hnone path (by simp [hpath])]
  rw [loadedConfig, hnamed, foundConfig, hproject, huser]
  rfl

end Config

/-! ## Runs -/

/-- A script with its report under a config. -/
def reported (c : LintConfig) (s : Script) : Except Failure (Script × Report) :=
  ((s.check c).mapError Failure.check).map (s, ·)

section Reports

variable {ss : List Script} {c : LintConfig}

lemma reported_eq_ok {s : Script} {r : Script × Report} :
    reported c s = .ok r ↔ r.1 = s ∧ s.check c = .ok r.2 := by
  obtain ⟨s', r⟩ := r
  rw [reported]
  cases s.check c with
  | ok r' => simp [Except.mapError, Except.map, eq_comm]
  | error e => simp [Except.mapError, Except.map]

lemma exists_reports_error {s : Script} (hs : s ∈ ss) (hd : s.document.check ≠ .ok ()) :
    ∃ e, ss.mapM (reported c) = .error e := by
  obtain ⟨e, he⟩ : ∃ e, s.check c = .error e := Script.exists_check_error hd
  refine exists_mapM_error hs (e := .check e) ?_
  rw [reported, he]
  rfl

lemma exists_reports (hd : ∀ s ∈ ss, s.document.check = .ok ()) :
    ∃ checked, ss.mapM (reported c) = .ok checked ∧
      List.Forall₂ (fun s r => r.1 = s ∧ s.check c = .ok r.2) ss checked := by
  have hreports : ∀ s ∈ ss, ∃ r, reported c s = .ok r := fun s hs => by
    obtain ⟨ds, hds, -⟩ := Script.exists_diagnose (hd s hs)
    exact ⟨(s, _), reported_eq_ok.2 ⟨rfl, Script.check_eq_ok.2 ⟨ds, hds, rfl⟩⟩⟩
  obtain ⟨checked, hchecked, hall⟩ := exists_mapM_ok hreports
  exact ⟨checked, hchecked, hall.imp fun _ _ => reported_eq_ok.1⟩

lemma any_hasErrors {disabled : List Code} {checked : List (Script × Report)}
    (h : List.Forall₂ (fun s r => r.1 = s ∧ s.check (disabled.foldl .disable c) = .ok r.2)
      ss checked) :
    checked.any (·.2.hasErrors) = true ↔ ∃ s ∈ ss, s.HasErrors c disabled := by
  obtain ⟨hreported, hreports⟩ := counterparts h
  rw [List.any_eq_true]
  constructor
  · rintro ⟨r, hr, herrors⟩
    obtain ⟨s, hs, -, hcheck⟩ := hreports r hr
    exact ⟨s, hs, (Script.hasErrors_report hcheck).1 herrors⟩
  · rintro ⟨s, hs, herrors⟩
    obtain ⟨r, hr, -, hcheck⟩ := hreported s hs
    exact ⟨r, hr, (Script.hasErrors_report hcheck).2 herrors⟩

end Reports

section Run

variable {w : World} {args : Arguments} {ss : List Script} {c base : LintConfig}

/-- The reports under a config, printed as the arguments say, and the status for them. -/
def reporting (w : World) (args : Arguments) (ss : List Script) (c : LintConfig) :
    Program Nat := do
  let checked ← settled (ss.mapM (reported c))
  match args.format with
  | .text => printText (w.colorful && !args.noColor) checked
  | .json => printJson checked
  return if checked.any (·.2.hasErrors) then 1 else 0

lemma exists_dumpLine (s : Script) : ∃ root, parse s.source = .ok ⟨s.source, [root]⟩ ∧
    dumpLine s = .ok (root.dump s.source ++ ['\n']) := by
  refine ⟨rootOf s.source, parse_eq s.source, ?_⟩
  rw [dumpLine, parse_eq]
  rfl

lemma run_eq {r : Except Failure Nat} {o : Output} (h : (program w args).Yields ⟨[], []⟩ r o) :
    run w args = ⟨o, r⟩ := by
  rw [run, h]

lemma run_of_scripts_error {e : Failure} (h : scripts w args = .error e) :
    run w args = ⟨⟨[], []⟩, .error e⟩ := by
  refine run_eq (Program.Yields.bind_error ?_)
  rw [h]
  exact Program.yields_settled _

lemma run_of_scripts (hss : scripts w args = .ok ss) {r : Except Failure Nat} {o : Output}
    (h : Program.Yields (if args.dumpTree then printTrees ss >>= fun _ => pure 0
      else settled (config w args) >>= reporting w args ss) ⟨[], []⟩ r o) :
    run w args = ⟨o, r⟩ := by
  have hread : (settled (scripts w args)).Yields ⟨[], []⟩ (.ok ss) ⟨[], []⟩ := by
    rw [hss]
    exact Program.yields_settled _
  exact run_eq (hread.bind h)

lemma run_of_dumpTree (hdump : args.dumpTree = true) (hss : scripts w args = .ok ss) :
    ∃ lines, List.Forall₂ (fun s line => dumpLine s = .ok line) ss lines ∧
      run w args = ⟨⟨lines.flatten, []⟩, .ok 0⟩ := by
  have hlines : ∀ s ∈ ss, ∃ line, dumpLine s = .ok line := fun s _ => by
    obtain ⟨root, -, h⟩ := exists_dumpLine s
    exact ⟨_, h⟩
  obtain ⟨lines, -, hlines⟩ := exists_mapM_ok hlines
  refine ⟨lines, hlines, run_of_scripts hss ?_⟩
  rw [if_pos hdump]
  exact (Program.yields_forM hlines).bind rfl

lemma run_of_config_error (hdump : args.dumpTree = false) (hss : scripts w args = .ok ss)
    {e : Failure} (h : loadedConfig w args = .error e) :
    run w args = ⟨⟨[], []⟩, .error e⟩ := by
  refine run_of_scripts hss ?_
  rw [if_neg (by simp [hdump])]
  have hconfig : config w args = .error e := by
    rw [config, h]
    rfl
  refine Program.Yields.bind_error ?_
  rw [hconfig]
  exact Program.yields_settled _

lemma run_of_config (hdump : args.dumpTree = false) (hss : scripts w args = .ok ss)
    (hbase : loadedConfig w args = .ok base) {r : Except Failure Nat} {o : Output}
    (h : (reporting w args ss (args.disabled.foldl .disable base)).Yields ⟨[], []⟩ r o) :
    run w args = ⟨o, r⟩ := by
  refine run_of_scripts hss ?_
  rw [if_neg (by simp [hdump])]
  have hconfig : config w args = .ok (args.disabled.foldl .disable base) := by
    rw [config, hbase]
    rfl
  rw [hconfig]
  exact (Program.yields_settled _).bind h

lemma run_of_refusal (hdump : args.dumpTree = false) (hss : scripts w args = .ok ss)
    (hbase : loadedConfig w args = .ok base) {s : Script} (hs : s ∈ ss)
    (hd : s.document.check ≠ .ok ()) : ∃ e, run w args = ⟨⟨[], []⟩, .error e⟩ := by
  obtain ⟨e, he⟩ := exists_reports_error (c := args.disabled.foldl .disable base) hs hd
  refine ⟨e, run_of_config hdump hss hbase (Program.Yields.bind_error ?_)⟩
  rw [he]
  exact Program.yields_settled _

lemma exists_yields_print {checked : List (Script × Report)}
    (h : ∀ c ∈ checked, ∀ d ∈ c.2.diagnostics, d.span.Within c.1.source) (color : Bool)
    (o : Output) : ∃ o', (printText color checked).Yields o (.ok ()) o' := by
  have hlines : ∀ c ∈ checked, ∃ t,
      (c.2.render c.1.source color).mapError Failure.display = .ok t := fun c hc => by
    obtain ⟨t, ht⟩ := Report.exists_render (h c hc) color
    rw [ht]
    exact ⟨t, rfl⟩
  obtain ⟨lines, -, hlines⟩ := exists_mapM_ok hlines
  cases hsummary : Report.summary? (checked.map Prod.snd) with
  | none =>
    refine ⟨⟨o.out ++ lines.flatten, o.err⟩, (Program.yields_forM hlines).bind ?_⟩
    rw [hsummary]
    rfl
  | some line =>
    refine ⟨⟨o.out ++ lines.flatten, o.err ++ (line ++ ['\n'])⟩,
      (Program.yields_forM hlines).bind ?_⟩
    rw [hsummary]
    rfl

/-- The status of reports depends on their errors alone, in whatever form they are printed. -/
lemma exists_yields_reporting {checked : List (Script × Report)}
    (hchecked : ss.mapM (reported c) = .ok checked)
    (h : ∀ r ∈ checked, ∀ d ∈ r.2.diagnostics, d.span.Within r.1.source) :
    ∃ o, (reporting w args ss c).Yields ⟨[], []⟩
      (.ok (if checked.any (·.2.hasErrors) then 1 else 0)) o := by
  have hread : (settled (ss.mapM (reported c))).Yields ⟨[], []⟩ (.ok checked) ⟨[], []⟩ := by
    rw [hchecked]
    exact Program.yields_settled _
  unfold reporting
  cases args.format with
  | text =>
    obtain ⟨o, ho⟩ := exists_yields_print h (w.colorful && !args.noColor) ⟨[], []⟩
    exact ⟨o, hread.bind (ho.bind rfl)⟩
  | json => exact ⟨_, hread.bind rfl⟩

/-- A run that refuses no script succeeds: with the status 1 if a script has errors, and with 0 if
none has. -/
lemma status_of_reports (hdump : args.dumpTree = false) (hss : scripts w args = .ok ss)
    (hbase : loadedConfig w args = .ok base) (hd : ∀ s ∈ ss, s.document.check = .ok ()) :
    ∃ status, (run w args).ending = .ok status ∧ (status = 0 ∨ status = 1) ∧
      (status = 1 ↔ ∃ s ∈ ss, s.HasErrors base args.disabled) := by
  obtain ⟨checked, hchecked, hall⟩ := exists_reports (c := args.disabled.foldl .disable base) hd
  have hwithin : ∀ r ∈ checked, ∀ d ∈ r.2.diagnostics, d.span.Within r.1.source := fun r hr => by
    obtain ⟨s, hs, rfl, hreport⟩ := (counterparts hall).2 r hr
    exact Script.within_of_mem_report (hd r.1 hs) hreport
  obtain ⟨o, hyields⟩ : ∃ o, (reporting w args ss (args.disabled.foldl .disable base)).Yields
      ⟨[], []⟩ (.ok (if checked.any (·.2.hasErrors) then 1 else 0)) o :=
    exists_yields_reporting hchecked hwithin
  refine ⟨_, by rw [run_of_config hdump hss hbase hyields], ?_, ?_⟩
  · split <;> simp
  · rw [← any_hasErrors hall]
    cases checked.any (·.2.hasErrors) <;> simp

end Run

/-! ## The outcome -/

/-- A source has a diagnostic that by itself is an error exactly if its tree has an error node. -/
lemma exists_error_iff {source : Text} {document : Document} {ds : List Diagnostic}
    (hd : document.check = .ok ())
    (hds : (parse source).bind (·.diagnose document) = .ok ds) :
    (∃ d ∈ ds, d.code.defaultSeverity = .error) ↔
      ∃ n ∈ (rootOf source).preorder, n.isError = true := by
  have hsevere : ∀ code : Code, code.defaultSeverity = .error ↔ code.isStructural = true :=
    fun code => by cases code <;> decide
  obtain ⟨ds', hds', hstructural⟩ := Tree.diagnose_structural source (rootOf source) hd
  have heq : ds' = ds := by
    rw [parse_eq] at hds
    exact Except.ok.inj (hds'.symm.trans hds)
  have hmem (d : Diagnostic) : d ∈ ds ∧ d.code.isStructural = true ↔
      ∃ s ∈ (rootOf source).sites none [] [], ∃ f ∈ Balance.rule source s,
        f.diagnostic .standard source document = d := by
    rw [← List.mem_filter (p := fun d : Diagnostic => d.code.isStructural), ← heq, hstructural,
      List.mem_map]
    simp only [List.mem_flatMap]
    constructor
    · rintro ⟨f, ⟨s, hs, hf⟩, rfl⟩
      exact ⟨s, hs, f, hf, rfl⟩
    · rintro ⟨s, hs, f, hf, rfl⟩
      exact ⟨f, ⟨s, hs, hf⟩, rfl⟩
  simp only [hsevere, hmem]
  constructor
  · rintro ⟨d, s, hs, f, hf, -⟩
    refine ⟨s.node, Site.node_mem hs, ?_⟩
    by_contra hne
    rw [Balance.rule_of_not_isError (Bool.eq_false_iff.2 hne)] at hf
    cases hf
  · rintro ⟨n, hn, herror⟩
    rw [← Node.map_node_sites _ none [] []] at hn
    obtain ⟨s, hs, rfl⟩ := List.mem_map.1 hn
    have hsound := sound_of_mem_preorder (Site.node_mem hs)
    obtain ⟨f, hrule, -⟩ := Balance.rule_of_isError hsound herror
    exact ⟨_, s, hs, f, by simp [hrule], rfl⟩

/-- The run cannot do what it is asked for: a script cannot be read, or, unless it is asked for
trees, the config cannot be loaded or a script is refused. -/
def Lacking (w : World) (args : Arguments) : Prop :=
  (∃ e, scripts w args = .error e) ∨ args.dumpTree = false ∧
    ((∃ e, loadedConfig w args = .error e) ∨
      ∃ ss, scripts w args = .ok ss ∧ ∃ s ∈ ss, s.document.check ≠ .ok ())

/-- What comes of a run, told by the scripts, the config and the diagnostics. -/
structure Outcome (w : World) (args : Arguments) : Prop where
  config : ∀ path, configPath? w args = some path → ∀ base,
    loadedConfig w args = .ok base ↔
      ∃ t, w.readText path = .ok t ∧ LintConfig.ofToml t = .ok base
  noConfig : configPath? w args = none → loadedConfig w args = .ok .default
  silent : ∀ e, (run w args).ending = .error e → (run w args).output = ⟨[], []⟩
  fails : (∃ e, (run w args).ending = .error e) ↔ Lacking w args
  trees : args.dumpTree = true → ∀ ss, scripts w args = .ok ss →
    ∃ lines, List.Forall₂ (fun s line => ∃ root, parse s.source = .ok ⟨s.source, [root]⟩ ∧
        line = root.dump s.source ++ ['\n']) ss lines ∧
      run w args = ⟨⟨lines.flatten, []⟩, .ok 0⟩
  reports : args.dumpTree = false → ¬ Lacking w args → ∃ ss base status,
    scripts w args = .ok ss ∧ loadedConfig w args = .ok base ∧
      (run w args).ending = .ok status ∧ (status = 0 ∨ status = 1) ∧
      (status = 1 ↔ ∃ s ∈ ss, s.HasErrors base args.disabled)
  errors : args.dumpTree = false → ¬ Lacking w args → args.disabled = [] →
    loadedConfig w args = .ok .default → ∃ ss status,
      scripts w args = .ok ss ∧ (run w args).ending = .ok status ∧
        (status = 1 ↔ ∃ s ∈ ss, ∃ root, parse s.source = .ok ⟨s.source, [root]⟩ ∧
          ∃ n ∈ root.preorder, n.isError = true)

section Run

variable {w : World} {args : Arguments}

lemma run_of_lacking (h : Lacking w args) : ∃ e, run w args = ⟨⟨[], []⟩, .error e⟩ := by
  cases hss : scripts w args with
  | error e => exact ⟨e, run_of_scripts_error hss⟩
  | ok ss =>
    obtain ⟨e, he⟩ | ⟨hdump, ⟨e, he⟩ | ⟨ss', hss', s, hs, hd⟩⟩ := h
    · rw [hss] at he
      cases he
    · exact ⟨e, run_of_config_error hdump hss he⟩
    · cases hbase : loadedConfig w args with
      | error e => exact ⟨e, run_of_config_error hdump hss hbase⟩
      | ok base => exact run_of_refusal hdump hss' hbase hs hd

lemma exists_scripts (h : ¬ Lacking w args) : ∃ ss, scripts w args = .ok ss := by
  cases hss : scripts w args with
  | error e => exact absurd (.inl ⟨e, hss⟩) h
  | ok ss => exact ⟨ss, rfl⟩

lemma exists_config (hdump : args.dumpTree = false) (h : ¬ Lacking w args) :
    ∃ ss base, scripts w args = .ok ss ∧ loadedConfig w args = .ok base ∧
      ∀ s ∈ ss, s.document.check = .ok () := by
  obtain ⟨ss, hss⟩ := exists_scripts h
  cases hbase : loadedConfig w args with
  | error e => exact absurd (.inr ⟨hdump, .inl ⟨e, hbase⟩⟩) h
  | ok base =>
    refine ⟨ss, base, hss, rfl, fun s hs => ?_⟩
    by_contra hd
    exact h (.inr ⟨hdump, .inr ⟨ss, hss, s, hs, hd⟩⟩)

lemma exists_status (h : ¬ Lacking w args) : ∃ status, (run w args).ending = .ok status := by
  cases hdump : args.dumpTree with
  | true =>
    obtain ⟨ss, hss⟩ := exists_scripts h
    obtain ⟨lines, -, hrun⟩ := run_of_dumpTree hdump hss
    exact ⟨0, by rw [hrun]⟩
  | false =>
    obtain ⟨ss, base, hss, hbase, hd⟩ := exists_config hdump h
    obtain ⟨status, hending, -⟩ := status_of_reports hdump hss hbase hd
    exact ⟨status, hending⟩

/-- By the default config the errors of a script are its error nodes. -/
lemma hasErrors_default_iff {s : Script} (hd : s.document.check = .ok ()) :
    s.HasErrors .default [] ↔
      ∃ root, parse s.source = .ok ⟨s.source, [root]⟩ ∧ ∃ n ∈ root.preorder, n.isError = true := by
  obtain ⟨ds, hds, -⟩ := Script.exists_diagnose hd
  have hsevere : s.HasErrors .default [] ↔ ∃ d ∈ ds, d.code.defaultSeverity = .error := by
    simp [Script.HasErrors, hds, LintConfig.isEnabled, LintConfig.severityOf, LintConfig.default]
  rw [hsevere, exists_error_iff hd hds]
  constructor
  · exact fun h => ⟨rootOf s.source, parse_eq s.source, h⟩
  · rintro ⟨root, hparse, h⟩
    rwa [eq_rootOf_of_parse hparse] at h

end Run

/-- What comes of a run depends on the scripts, the config and the diagnostics alone, and a run that
fails has printed nothing. -/
theorem run_outcome (w : World) (args : Arguments) : Outcome w args where
  config path hpath base := loadedConfig_eq_ok hpath
  noConfig := loadedConfig_of_none
  silent e he := by
    by_cases h : Lacking w args
    · obtain ⟨e', hrun⟩ := run_of_lacking h
      rw [hrun]
    · obtain ⟨status, hending⟩ := exists_status h
      rw [hending] at he
      cases he
  fails := by
    constructor
    · rintro ⟨e, he⟩
      by_contra h
      obtain ⟨status, hending⟩ := exists_status h
      rw [hending] at he
      cases he
    · intro h
      obtain ⟨e, hrun⟩ := run_of_lacking h
      exact ⟨e, by rw [hrun]⟩
  trees hdump ss hss := by
    obtain ⟨lines, hlines, hrun⟩ := run_of_dumpTree hdump hss
    refine ⟨lines, hlines.imp fun s line hline => ?_, hrun⟩
    obtain ⟨root, hparse, hdumpLine⟩ := exists_dumpLine s
    rw [hdumpLine, Except.ok.injEq] at hline
    exact ⟨root, hparse, hline.symm⟩
  reports hdump h := by
    obtain ⟨ss, base, hss, hbase, hd⟩ := exists_config hdump h
    obtain ⟨status, hending, hstatus⟩ := status_of_reports hdump hss hbase hd
    exact ⟨ss, base, status, hss, hbase, hending, hstatus⟩
  errors hdump h hdisabled hdefault := by
    obtain ⟨ss, base, hss, hbase, hd⟩ := exists_config hdump h
    obtain ⟨status, hending, -, hstatus⟩ := status_of_reports hdump hss hbase hd
    obtain rfl : base = .default := Except.ok.inj (hbase.symm.trans hdefault)
    refine ⟨ss, status, hss, hending, ?_⟩
    rw [hstatus, hdisabled]
    exact exists_congr fun s => and_congr_right fun hs => hasErrors_default_iff (hd s hs)

/-- A script that leaves a block open and sets a universal variable comes on standard input. -/
def pipe (root : FileTree) : World :=
  ⟨root, "/".toList, none, Text.utf8 "set -U é; begin".toList, false⟩

/-- The script on standard input there. -/
def piped : Script := ⟨inputLabel, "set -U é; begin".toList, .anonymous⟩

/-- Reports on standard input, and then on `paths`, for all codes but those that are disabled. -/
def asked (paths : List Text) (disabled : List Code) : Arguments :=
  ⟨inputPath :: paths, none, .text, none, disabled, false, false⟩

/-- A config in which the one problem is left out and the other one is an error. -/
def regrading : Text :=
  "disable = [1001]\n[severity]\nuniversalVariable = \"error\"\n".toList

/-- A config that is cut off. -/
def cutOff : Text := "disable = [".toList

/-- The config of a project, and one that is cut off. -/
def project : FileTree :=
  .directory [(projectConfig, .file (Text.utf8 regrading)), (['c'], .file (Text.utf8 cutOff))]

/-- Without a config the open block is an error as long as its code is not disabled, and the
variable is none; where a file is missing, nothing is printed of the script that could be read. With
the config of the project the variable is the error; and where the arguments name the config that is
cut off, that of the project is not looked at and nothing is printed. -/
theorem run_outcome_pipe :
    ((run (pipe .empty) (asked [] [])).ending = .ok 1 ∧
      ∃ root, parse piped.source = .ok ⟨piped.source, [root]⟩ ∧
        ∃ n ∈ root.preorder, n.isError = true) ∧
    (run (pipe .empty) (asked [] [.missingEnd])).ending = .ok 0 ∧
    (∃ e, run (pipe .empty) (asked ["f".toList] []) = ⟨⟨[], []⟩, .error e⟩) ∧
    ((run (pipe project) (asked [] [])).ending = .ok 1 ∧
      ∃ base, LintConfig.ofToml regrading = .ok base ∧ piped.HasErrors base []) ∧
    (run (pipe project) (asked [] [.universalVariable])).ending = .ok 0 ∧
    ∃ e, run (pipe project) { asked [] [] with config := some ['c'] } = ⟨⟨[], []⟩, .error e⟩ := by
  have hsilent {w : World} {args : Arguments} (h : Lacking w args) :
      ∃ e, run w args = ⟨⟨[], []⟩, .error e⟩ := by
    obtain ⟨e, he⟩ := (run_outcome w args).fails.2 h
    exact ⟨e, by rw [← he, ← (run_outcome w args).silent e he]⟩
  have hlacks {w : World} {args : Arguments} {status : Nat}
      (h : (run w args).ending = .ok status) : ¬ Lacking w args := fun hlacks => by
    obtain ⟨e, he⟩ := (run_outcome w args).fails.2 hlacks
    rw [h] at he
    cases he
  have hread : scripts (pipe .empty) (asked [] []) = .ok [piped] ∧
      scripts (pipe project) (asked [] []) = .ok [piped] := by
    decide +kernel
  have hone : (run (pipe .empty) (asked [] [])).ending = .ok 1 :=
    toOption_eq_some.1 (by decide +kernel)
  have hregraded : (run (pipe project) (asked [] [])).ending = .ok 1 :=
    toOption_eq_some.1 (by decide +kernel)
  refine ⟨⟨hone, ?_⟩, toOption_eq_some.1 (by decide +kernel),
    hsilent (.inl ⟨.script ['f'] .missing, ?_⟩), ⟨hregraded, ?_⟩,
    toOption_eq_some.1 (by decide +kernel), hsilent (.inr ⟨rfl, .inl ?_⟩)⟩
  · have hbase : loadedConfig (pipe .empty) (asked [] []) = .ok .default :=
      (run_outcome (pipe .empty) (asked [] [])).noConfig (by decide +kernel)
    obtain ⟨ss, status, hscripts, hstatus, herrors⟩ :=
      (run_outcome (pipe .empty) (asked [] [])).errors rfl (hlacks hone) rfl hbase
    obtain rfl : [piped] = ss := Except.ok.inj (hread.1.symm.trans hscripts)
    obtain rfl : 1 = status := Except.ok.inj (hone.symm.trans hstatus)
    obtain ⟨s, hs, h⟩ := herrors.1 rfl
    rwa [List.mem_singleton.1 hs] at h
  · decide +kernel
  · obtain ⟨ss, base, status, hscripts, hbase, hstatus, -, herrors⟩ :=
      (run_outcome (pipe project) (asked [] [])).reports rfl (hlacks hregraded)
    obtain rfl : [piped] = ss := Except.ok.inj (hread.2.symm.trans hscripts)
    obtain rfl : 1 = status := Except.ok.inj (hregraded.symm.trans hstatus)
    obtain ⟨t, ht, hconfig⟩ :=
      ((run_outcome (pipe project) (asked [] [])).config projectConfig (by decide +kernel) base).1
        hbase
    have htext : (pipe project).readText projectConfig = .ok regrading := by decide +kernel
    obtain rfl : regrading = t := Except.ok.inj (htext.symm.trans ht)
    obtain ⟨s, hs, h⟩ := herrors.1 rfl
    rw [List.mem_singleton.1 hs] at h
    exact ⟨base, hconfig, h⟩
  · cases hbase : loadedConfig (pipe project) { asked [] [] with config := some ['c'] } with
    | error e => exact ⟨e, rfl⟩
    | ok base =>
      obtain ⟨t, ht, hconfig⟩ :=
        ((run_outcome (pipe project) _).config ['c'] rfl base).1 hbase
      have htext : (pipe project).readText ['c'] = .ok cutOff := by decide +kernel
      obtain rfl : cutOff = t := Except.ok.inj (htext.symm.trans ht)
      have hmalformed : LintConfig.ofToml cutOff = .error .malformed := by decide +kernel
      rw [hmalformed] at hconfig
      cases hconfig

end CommandLine

end FishScript
