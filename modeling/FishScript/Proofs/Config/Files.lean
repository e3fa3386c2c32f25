/-
# What a config file says

A config file is read in two passes, each of which stops at the first text that names no code: first
over the entries for the codes that are not reported, in the order of the file, then over the texts
with a severity, in the order of their bytes. In a list that is sorted the first element with a
property is the least one (`find?_eq_some_iff_least`). So the text that is blamed is the first
entry that names no code or else the least text, and where several texts name one code the severity
of the greatest one counts (`config_means`). No text has two severities in a file that is decoded,
as no key stands twice in a table (`nodup_of_document?`).
-/
import Mathlib
import FishScript.Config.File
import FishScript.Files.Bytes
import FishScript.Proofs.Diagnostic.Naming
import FishScript.Proofs.Lists
import FishScript.Proofs.Text.Order
import FishScript.Proofs.Toml.Tables

namespace FishScript

/-! ## Sorted lists -/

section Sorted

variable {α : Type} {r : α → α → Prop} {p : α → Bool} {xs : List α} {x : α}

lemma find?_eq_some_iff_least (hxs : xs.Pairwise r) (hrefl : ∀ x, r x x)
    (hanti : ∀ x ∈ xs, ∀ y ∈ xs, r x y → r y x → x = y) :
    xs.find? p = some x ↔ x ∈ xs ∧ p x = true ∧ ∀ y ∈ xs, p y = true → r x y := by
  have hleast {x : α} (h : xs.find? p = some x) : ∀ y ∈ xs, p y = true → r x y := by
    obtain ⟨-, before, after, rfl, hbefore⟩ := List.find?_eq_some_iff_append.1 h
    intro y hy hp
    rcases List.mem_append.1 hy with hy | hy
    · exact absurd hp (by simpa using hbefore y hy)
    · rcases List.mem_cons.1 hy with rfl | hy
      · exact hrefl y
      · exact List.rel_of_pairwise_cons (List.pairwise_append.1 hxs).2.1 hy
  constructor
  · exact fun h => ⟨List.mem_of_find?_eq_some h, List.find?_some h, hleast h⟩
  · rintro ⟨hx, hp, hx'⟩
    obtain ⟨y, hy⟩ := Option.isSome_iff_exists.1 (List.find?_isSome.2 ⟨x, hx, hp⟩)
    have hmem := List.mem_of_find?_eq_some hy
    rw [hy, hanti x hx y hmem (hx' y hmem (List.find?_some hy)) (hleast hy x hx hp)]

end Sorted

namespace CodeEntry

/-- The text in which an entry is looked up. -/
def spelling : CodeEntry → Text
  | .number n => Text.ofNat n
  | .text t => t

/-- The entry names the code: it is its number, or it spells it but for white space around it. -/
def Names : CodeEntry → Code → Prop
  | .number n, code => n = code.number
  | .text t, code => code.IsSpelled t.trim

variable {x : CodeEntry} {code : Code}

lemma code_eq (x : CodeEntry) : x.code = Code.ofText x.spelling := by cases x <;> rfl

lemma names_iff : x.Names code ↔ code.IsSpelled x.spelling.trim := by
  cases x with
  | number n => exact Code.isSpelled_ofNat.symm
  | text t => rfl

theorem code_eq_ok_iff : x.code = .ok code ↔ x.Names code := by
  rw [code_eq, Code.ofText_eq_ok_iff, names_iff]

lemma code_eq_error_iff {e : UnknownCode} :
    x.code = .error e ↔ (∀ code, ¬ x.Names code) ∧ e = ⟨x.spelling.trim⟩ := by
  simp only [code_eq, Code.ofText_eq_error_iff, names_iff]

end CodeEntry

namespace ConfigFile

/-- The text is that of the first entry that names no code. -/
def BlamesEntry (f : ConfigFile) (t : Text) : Prop :=
  ∃ before x after, f.disable = before ++ x :: after ∧ (∀ y ∈ before, ∃ code, y.Names code) ∧
    (∀ code, ¬ x.Names code) ∧ t = x.spelling

/-- The text is the least one in the order of bytes that has a severity but names no code. -/
def BlamesKey (f : ConfigFile) (t : Text) : Prop :=
  ∃ severity, (t, severity) ∈ f.severity ∧ (∀ code : Code, ¬ code.IsSpelled t.trim) ∧
    ∀ e ∈ f.severity, (∀ code : Code, ¬ code.IsSpelled e.1.trim) → Text.utf8 t ≤ Text.utf8 e.1

/-- Every entry names a code. -/
def EntriesResolve (f : ConfigFile) : Prop := ∀ x ∈ f.disable, ∃ code, x.Names code

/-- The text that is blamed when no config is made: that of an entry, or, if all entries name codes,
another one. -/
def Blames (f : ConfigFile) (t : Text) : Prop :=
  f.BlamesEntry t ∨ f.EntriesResolve ∧ f.BlamesKey t

/-- Every text with a severity names a code. -/
def KeysResolve (f : ConfigFile) : Prop :=
  ∀ e ∈ f.severity, ∃ code : Code, code.IsSpelled e.1.trim

/-- Of the texts that name a code the greatest one in the order of bytes has the severity. -/
def Grades (f : ConfigFile) (code : Code) (severity : Severity) : Prop :=
  ∃ t, (t, severity) ∈ f.severity ∧ code.IsSpelled t.trim ∧
    ∀ e ∈ f.severity, code.IsSpelled e.1.trim → Text.utf8 e.1 ≤ Text.utf8 t

/-- The config says what the file lists. -/
structure Means (f : ConfigFile) (config : LintConfig) : Prop where
  /-- A code is not reported if an entry names it. -/
  disabled : ∀ code, config.isEnabled code = false ↔ ∃ x ∈ f.disable, x.Names code
  /-- A code has the severity of the greatest text that names it, or its default one. -/
  severity : ∀ code severity, config.severityOf code = severity ↔ f.Grades code severity ∨
    (∀ e ∈ f.severity, ¬ code.IsSpelled e.1.trim) ∧ severity = code.defaultSeverity

variable {f : ConfigFile} {code : Code}

/-! ## Codes that are not reported -/

lemma disabledCodes_eq_error_iff {e : UnknownCode} :
    f.disabledCodes = .error e ↔ ∃ t, f.BlamesEntry t ∧ e = ⟨t.trim⟩ := by
  rw [disabledCodes, mapM_eq_error_iff]
  constructor
  · rintro ⟨x, hx, he⟩
    obtain ⟨-, before, after, heq, hbefore⟩ := List.find?_eq_some_iff_append.1 hx
    obtain ⟨hnone, rfl⟩ := CodeEntry.code_eq_error_iff.1 he
    refine ⟨x.spelling, ⟨before, x, after, heq, fun y hy => ?_, hnone, rfl⟩, rfl⟩
    obtain ⟨code, hcode⟩ := isOk_iff.1 (by simpa using hbefore y hy)
    exact ⟨code, CodeEntry.code_eq_ok_iff.1 hcode⟩
  · rintro ⟨_, ⟨before, x, after, heq, hbefore, hnone, rfl⟩, rfl⟩
    have hx := CodeEntry.code_eq_error_iff.2 ⟨hnone, rfl⟩
    refine ⟨x, List.find?_eq_some_iff_append.2
      ⟨not_isOk_iff.2 ⟨_, hx⟩, before, after, heq, fun y hy => ?_⟩, hx⟩
    obtain ⟨code, hcode⟩ := hbefore y hy
    simpa using isOk_iff.2 ⟨code, CodeEntry.code_eq_ok_iff.2 hcode⟩

lemma exists_disabledCodes_iff : (∃ codes, f.disabledCodes = .ok codes) ↔ f.EntriesResolve := by
  rw [disabledCodes, exists_mapM_eq_ok_iff]
  simp only [CodeEntry.code_eq_ok_iff, EntriesResolve]

lemma contains_disabledCodes {codes : List Code} (h : f.disabledCodes = .ok codes) :
    codes.contains code = true ↔ ∃ x ∈ f.disable, x.Names code := by
  have hall := counterparts (forall₂_of_mapM_eq_ok h)
  rw [List.contains_iff_mem]
  constructor
  · intro hcode
    obtain ⟨x, hx, hname⟩ := hall.2 code hcode
    exact ⟨x, hx, CodeEntry.code_eq_ok_iff.1 hname⟩
  · rintro ⟨x, hx, hname⟩
    obtain ⟨code', hcode', hx'⟩ := hall.1 x hx
    rw [CodeEntry.code_eq_ok_iff.2 hname, Except.ok.injEq] at hx'
    rwa [hx']

/-! ## Severities -/

lemma mem_sortedSeverity {e : Text × Severity} : e ∈ f.sortedSeverity ↔ e ∈ f.severity :=
  (List.mergeSort_perm _ _).mem_iff

lemma pairwise_sortedSeverity (f : ConfigFile) :
    f.sortedSeverity.Pairwise fun a b => Text.utf8 a.1 ≤ Text.utf8 b.1 := by
  have hsorted : f.sortedSeverity.Pairwise fun a b => Text.le a.1 b.1 = true :=
    List.pairwise_mergeSort (fun a b c => Text.le_trans (t := b.1))
      (fun a b => Bool.or_eq_true_iff.2 (Text.le_total a.1 b.1)) f.severity
  exact hsorted.imp fun h => (Text.le_iff_utf8 _ _).1 h

/-- Texts with a severity that come in neither order are the same, and so are their severities. -/
lemma eq_of_utf8_le (hf : (f.severity.map Prod.fst).Nodup) {a b : Text × Severity}
    (ha : a ∈ f.severity) (hb : b ∈ f.severity) (hab : Text.utf8 a.1 ≤ Text.utf8 b.1)
    (hba : Text.utf8 b.1 ≤ Text.utf8 a.1) : a = b :=
  List.inj_on_of_nodup_map hf ha hb <|
    Text.le_antisymm ((Text.le_iff_utf8 _ _).2 hab) ((Text.le_iff_utf8 _ _).2 hba)

section Extremes

variable (hf : (f.severity.map Prod.fst).Nodup) {p : Text × Severity → Bool} {e : Text × Severity}

include hf

lemma find?_sortedSeverity : f.sortedSeverity.find? p = some e ↔
    e ∈ f.severity ∧ p e = true ∧
      ∀ e' ∈ f.severity, p e' = true → Text.utf8 e.1 ≤ Text.utf8 e'.1 := by
  rw [find?_eq_some_iff_least f.pairwise_sortedSeverity fun _ => List.le_refl _]
  · simp only [mem_sortedSeverity]
  · intro a ha b hb
    exact eq_of_utf8_le hf (mem_sortedSeverity.1 ha) (mem_sortedSeverity.1 hb)

lemma find?_reverse_sortedSeverity : f.sortedSeverity.reverse.find? p = some e ↔
    e ∈ f.severity ∧ p e = true ∧
      ∀ e' ∈ f.severity, p e' = true → Text.utf8 e'.1 ≤ Text.utf8 e.1 := by
  rw [find?_eq_some_iff_least (List.pairwise_reverse.2 f.pairwise_sortedSeverity)
    fun _ => List.le_refl _]
  · simp only [List.mem_reverse, mem_sortedSeverity]
  · intro a ha b hb hba hab
    rw [List.mem_reverse, mem_sortedSeverity] at ha hb
    exact eq_of_utf8_le hf ha hb hab hba

end Extremes

variable {levels : List (Code × Severity)}

lemma level_eq_ok_iff {e : Text × Severity} {level : Code × Severity} :
    (·, e.2) <$> Code.ofText e.1 = .ok level ↔ level.1.IsSpelled e.1.trim ∧ level.2 = e.2 := by
  rw [← Code.ofText_eq_ok_iff]
  cases Code.ofText e.1 with
  | error => simp
  | ok code => simp [Prod.ext_iff, eq_comm]

lemma level_eq_error_iff {x : Text × Severity} {e : UnknownCode} :
    (·, x.2) <$> Code.ofText x.1 = .error e ↔
      (∀ code : Code, ¬ code.IsSpelled x.1.trim) ∧ e = ⟨x.1.trim⟩ := by
  rw [← Code.ofText_eq_error_iff]
  cases Code.ofText x.1 <;> simp

/-- The last level of a code in the list is the severity of the last text that names it. -/
lemma map_findRev?_levels (h : f.levels = .ok levels) (code : Code) :
    (levels.findRev? (·.1 == code)).map Prod.snd =
      (f.sortedSeverity.reverse.find? (Code.ofText? ·.1 == some code)).map Prod.snd := by
  have hall := List.forall₂_reverse_iff.2 (forall₂_of_mapM_eq_ok h)
  have hrel := forall₂_find? (p := (Code.ofText? ·.1 == some code)) (q := (·.1 == code)) hall
    (fun he => by
      rw [Code.ofText?_eq_some_iff.2 (level_eq_ok_iff.1 he).1]
      rfl)
    fun he _ => he
  rw [List.findRev?_eq_find?_reverse]
  generalize levels.reverse.find? _ = b at hrel ⊢
  generalize f.sortedSeverity.reverse.find? _ = a at hrel ⊢
  cases hrel with
  | none => rfl
  | some he => exact congrArg some (level_eq_ok_iff.1 he).2

lemma levels_eq_error_iff (hf : (f.severity.map Prod.fst).Nodup) {e : UnknownCode} :
    f.levels = .error e ↔ ∃ t, f.BlamesKey t ∧ e = ⟨t.trim⟩ := by
  rw [levels, mapM_eq_error_iff]
  simp only [find?_sortedSeverity hf, not_isOk_iff, level_eq_error_iff, exists_and_left,
    exists_eq, and_true]
  constructor
  · rintro ⟨⟨t, severity⟩, hleast, -, rfl⟩
    exact ⟨t, ⟨severity, hleast⟩, rfl⟩
  · rintro ⟨t, ⟨severity, hleast⟩, rfl⟩
    exact ⟨(t, severity), hleast, hleast.2.1, rfl⟩

lemma exists_levels_iff : (∃ levels, f.levels = .ok levels) ↔ f.KeysResolve := by
  rw [levels, exists_mapM_eq_ok_iff]
  simp only [level_eq_ok_iff, KeysResolve, mem_sortedSeverity, Prod.exists, exists_and_left,
    exists_eq, and_true]

lemma map_findRev?_levels_eq_some_iff (hf : (f.severity.map Prod.fst).Nodup)
    (h : f.levels = .ok levels) {severity : Severity} :
    (levels.findRev? (·.1 == code)).map Prod.snd = some severity ↔ f.Grades code severity := by
  rw [map_findRev?_levels h, Option.map_eq_some_iff]
  simp only [find?_reverse_sortedSeverity hf, beq_iff_eq, Code.ofText?_eq_some_iff]
  constructor
  · rintro ⟨⟨t, severity⟩, he, rfl⟩
    exact ⟨t, he⟩
  · rintro ⟨t, he⟩
    exact ⟨(t, severity), he, rfl⟩

lemma map_findRev?_levels_eq_none_iff (h : f.levels = .ok levels) :
    (levels.findRev? (·.1 == code)).map Prod.snd = none ↔
      ∀ e ∈ f.severity, ¬ code.IsSpelled e.1.trim := by
  rw [map_findRev?_levels h, Option.map_eq_none_iff, List.find?_eq_none]
  simp only [List.mem_reverse, mem_sortedSeverity, beq_iff_eq, Code.ofText?_eq_some_iff]

/-! ## The config -/

lemma config_eq (f : ConfigFile) : f.config = f.disabledCodes.bind fun codes =>
    f.levels.map fun levels =>
      ⟨fun c => codes.contains c, fun c => (levels.findRev? (·.1 == c)).map Prod.snd⟩ := by
  rw [config]
  cases f.disabledCodes with
  | error e => rfl
  | ok codes => cases f.levels <;> rfl

lemma config_eq_error_iff (hf : (f.severity.map Prod.fst).Nodup) {e : UnknownCode} :
    f.config = .error e ↔ ∃ t, f.Blames t ∧ e = ⟨t.trim⟩ := by
  have hsplit : (∃ t, f.Blames t ∧ e = ⟨t.trim⟩) ↔
      f.disabledCodes = .error e ∨
        (∃ codes, f.disabledCodes = .ok codes) ∧ f.levels = .error e := by
    rw [disabledCodes_eq_error_iff, exists_disabledCodes_iff, levels_eq_error_iff hf,
      ← exists_and_left, ← exists_or]
    simp only [Blames, or_and_right, and_assoc]
  rw [hsplit, config_eq]
  cases f.disabledCodes with
  | error e' => simp [Except.bind]
  | ok codes => cases f.levels <;> simp [Except.bind, Except.map]

lemma exists_config_iff :
    (∃ config, f.config = .ok config) ↔ f.EntriesResolve ∧ f.KeysResolve := by
  rw [← exists_disabledCodes_iff, ← exists_levels_iff, config_eq]
  cases f.disabledCodes with
  | error e => simp [Except.bind]
  | ok codes => cases f.levels <;> simp [Except.bind, Except.map]

lemma exists_of_config_eq_ok {config : LintConfig} (h : f.config = .ok config) :
    ∃ codes levels, f.disabledCodes = .ok codes ∧ f.levels = .ok levels ∧
      (∀ code, config.disabled code = codes.contains code) ∧
      ∀ code, config.level? code = (levels.findRev? (·.1 == code)).map Prod.snd := by
  rw [config_eq] at h
  cases hcodes : f.disabledCodes with
  | error e => rw [hcodes] at h; cases h
  | ok codes =>
    cases hlevels : f.levels with
    | error e => rw [hcodes, hlevels] at h; cases h
    | ok levels =>
      rw [hcodes, hlevels] at h
      obtain rfl := Except.ok.inj h
      exact ⟨codes, levels, rfl, rfl, fun _ => rfl, fun _ => rfl⟩

lemma means_of_config_eq_ok (hf : (f.severity.map Prod.fst).Nodup) {config : LintConfig}
    (h : f.config = .ok config) : f.Means config := by
  obtain ⟨codes, levels, hcodes, hlevels, hdisabled, hlevel⟩ := exists_of_config_eq_ok h
  constructor
  · intro code
    rw [LintConfig.isEnabled, Bool.not_eq_false', hdisabled, contains_disabledCodes hcodes]
  · intro code severity
    rw [← map_findRev?_levels_eq_some_iff hf hlevels, ← map_findRev?_levels_eq_none_iff hlevels,
      ← hlevel, LintConfig.severityOf]
    cases config.level? code <;> simp [eq_comm]

/-! ## Decoding -/

lemma map_fst_of_severitiesOf? {origin : Toml.Origin} {values : Toml.Entries}
    {entries : List (Text × Severity)} (h : severitiesOf? (.table origin values) = some entries) :
    entries.map Prod.fst = values.map Prod.fst := by
  rw [severitiesOf?] at h
  induction values generalizing entries with
  | nil =>
    obtain rfl := Option.some_inj.1 h
    rfl
  | cons e values ih =>
    rw [List.mapM_cons] at h
    obtain ⟨_, he, h⟩ := Option.bind_eq_some_iff.1 h
    obtain ⟨rest, hrest, h⟩ := Option.bind_eq_some_iff.1 h
    obtain ⟨severity, -, rfl⟩ := Option.map_eq_some_iff.1 he
    obtain rfl := Option.some_inj.1 h
    rw [List.map_cons, List.map_cons, ih hrest]

lemma nodup_of_severitiesOf? {x : Toml.Value} {entries : List (Text × Severity)} (hx : x.Distinct)
    (h : severitiesOf? x = some entries) : (entries.map Prod.fst).Nodup := by
  cases hx with
  | text | integer | array => cases h
  | table origin values hkeys => rwa [map_fst_of_severitiesOf? h]

lemma nodup_withEntry {f' : ConfigFile} {key : Text} {x : Toml.Value}
    (hf : (f.severity.map Prod.fst).Nodup) (hx : x.Distinct) (h : f.withEntry? key x = some f') :
    (f'.severity.map Prod.fst).Nodup := by
  unfold withEntry? at h
  split_ifs at h
  · obtain ⟨disable, -, rfl⟩ := Option.map_eq_some_iff.1 h
    exact hf
  · obtain ⟨severity, hseverity, rfl⟩ := Option.map_eq_some_iff.1 h
    exact nodup_of_severitiesOf? hx hseverity

lemma nodup_of_foldlM {entries : Toml.Entries} {start : ConfigFile}
    (hstart : (start.severity.map Prod.fst).Nodup) (hentries : ∀ e ∈ entries, e.2.Distinct)
    (h : entries.foldlM (fun f (key, value) => f.withEntry? key value) start = some f) :
    (f.severity.map Prod.fst).Nodup := by
  induction entries generalizing start with
  | nil => rwa [← Option.some_inj.1 h]
  | cons e entries ih =>
    obtain ⟨hfirst, hrest⟩ := List.forall_mem_cons.1 hentries
    rw [List.foldlM_cons] at h
    obtain ⟨next, hnext, h⟩ := Option.bind_eq_some_iff.1 h
    exact ih (nodup_withEntry hstart hfirst hnext) hrest h

theorem nodup_of_document? {t : Text} (h : (Toml.document? t).bind ofDocument? = some f) :
    (f.severity.map Prod.fst).Nodup := by
  obtain ⟨entries, hentries, h⟩ := Option.bind_eq_some_iff.1 h
  have hstart : ((⟨[], []⟩ : ConfigFile).severity.map Prod.fst).Nodup := List.nodup_nil
  exact nodup_of_foldlM hstart (Toml.distinct_of_document? hentries).below h

/-- A text or an entry resolves to the code that it spells, white space around it aside. A file has
a config exactly if all its entries and all texts with a severity resolve; otherwise the first entry
that does not is blamed, or else the least text. The config disables the codes of the entries, and
gives every code the severity of the greatest text that spells it. The text of a file has the config
of what it is decoded to. -/
theorem config_means :
    (∀ t : Text, ∃ front back, Text.Blank front ∧ Text.Blank back ∧ t = front ++ t.trim ++ back ∧
      (∀ c ∈ t.trim.head?, Text.isBlank c = false) ∧
      ∀ c ∈ t.trim.getLast?, Text.isBlank c = false) ∧
    (∀ (t : Text) (code : Code), Code.ofText t = .ok code ↔ code.IsSpelled t.trim) ∧
    (∀ (x : CodeEntry) (code : Code), x.code = .ok code ↔ x.Names code) ∧
    (∀ f : ConfigFile, (f.severity.map Prod.fst).Nodup →
      (∀ e, f.config = .error e ↔ ∃ t, f.Blames t ∧ e = ⟨t.trim⟩) ∧
      ((∃ config, f.config = .ok config) ↔ f.EntriesResolve ∧ f.KeysResolve) ∧
      ∀ config, f.config = .ok config → f.Means config) ∧
    ∀ (t : Text) (f : ConfigFile), (Toml.document? t).bind ofDocument? = some f →
      (f.severity.map Prod.fst).Nodup ∧ LintConfig.ofToml t = f.config.mapError .unknownCode := by
  refine ⟨Text.exists_eq_trim, fun t code => Code.ofText_eq_ok_iff,
    fun x code => CodeEntry.code_eq_ok_iff, fun f hf => ?_, fun t f h => ?_⟩
  · exact ⟨fun _ => config_eq_error_iff hf, exists_config_iff, fun _ => means_of_config_eq_ok hf⟩
  · exact ⟨nodup_of_document? h, by rw [LintConfig.ofToml, h]⟩

/-- Three texts that name one code, and a number that is too big. -/
theorem config_means_conflict :
    let f : ConfigFile := ⟨[.number 1001, .text " +04002\t".toList],
      [("unreachableCode".toList, .info), (" +02001 ".toList, .warning), ("2001".toList, .error)]⟩
    let big : ConfigFile := ⟨[.number 1001, .text "66537 ".toList], [("none".toList, .error)]⟩
    ((f.severity.map Prod.fst).Nodup ∧ ∃ config, f.config = .ok config ∧
      config.isEnabled .pathVariable = false ∧ config.severityOf .unreachableCode = .info) ∧
    (big.severity.map Prod.fst).Nodup ∧ big.config = .error ⟨"66537".toList⟩ := by
  intro f big
  have hf : (f.severity.map Prod.fst).Nodup := by decide
  have hbig : (big.severity.map Prod.fst).Nodup := by decide
  obtain ⟨-, htext, hentry, hfile, -⟩ := config_means
  have hpath : CodeEntry.Names (.text " +04002\t".toList) .pathVariable := (hentry _ _).1 rfl
  have hsigned : Code.IsSpelled .unreachableCode (Text.trim " +02001 ".toList) := (htext _ _).1 rfl
  have hnumber : Code.IsSpelled .unreachableCode (Text.trim "2001".toList) := (htext _ _).1 rfl
  have hname : Code.IsSpelled .unreachableCode (Text.trim "unreachableCode".toList) :=
    (htext _ _).1 rfl
  refine ⟨⟨hf, ?_⟩, hbig, ?_⟩
  · obtain ⟨-, hok, hmeans⟩ := hfile f hf
    have hentries : f.EntriesResolve := List.forall_mem_cons.2 ⟨⟨.missingEnd, rfl⟩,
      List.forall_mem_singleton.2 ⟨.pathVariable, hpath⟩⟩
    have hkeys : f.KeysResolve := List.forall_mem_cons.2 ⟨⟨_, hname⟩,
      List.forall_mem_cons.2 ⟨⟨_, hsigned⟩, List.forall_mem_singleton.2 ⟨_, hnumber⟩⟩⟩
    have hgreatest : ∀ e ∈ f.severity, Text.utf8 e.1 ≤ Text.utf8 "unreachableCode".toList := by
      decide +kernel
    obtain ⟨config, hconfig⟩ := hok.2 ⟨hentries, hkeys⟩
    refine ⟨config, hconfig, ?_, ?_⟩
    · exact ((hmeans config hconfig).disabled _).2 ⟨_, by simp [f], hpath⟩
    · exact ((hmeans config hconfig).severity _ _).2 <|
        .inl ⟨_, List.mem_cons_self, hname, fun e he _ => hgreatest e he⟩
  · have herror : CodeEntry.code (.text "66537 ".toList) = .error ⟨"66537".toList⟩ := rfl
    refine ((hfile big hbig).1 _).2 ⟨"66537 ".toList, .inl ⟨[.number 1001], _, [], rfl,
      List.forall_mem_singleton.2 ⟨.missingEnd, rfl⟩, fun code h => ?_, rfl⟩, rfl⟩
    cases herror.symm.trans ((hentry _ code).2 h)

end ConfigFile

end FishScript
