/-
# Which files are autoloaded

A name is cut at its last dot (`cutName?_eq_some_iff`), unless this is its first character. So the
name of a script is a name that is not empty with the extension behind it
(`autoloadedBy?_eq_some_iff`), and a document with a path is never one that is autoloaded under an
empty name: the check that refuses such a document passes whatever the path (`ofPath_autoload`).
-/
import Mathlib
import FishScript.Document
import FishScript.Proofs.CommandLine.Outcome
import FishScript.Proofs.Text.Lines

namespace FishScript

namespace Text

variable {sep : Char} {t before rest : Text}

lemma cut?_eq_some_iff :
    cut? sep t = some (before, rest) ↔ t = before ++ sep :: rest ∧ sep ∉ before := by
  constructor
  · intro h
    by_cases hmem : sep ∈ t
    · obtain ⟨before', rest', rfl, hsep⟩ := List.eq_append_cons_of_mem hmem
      rw [cut?_append_cons hsep, Option.some_inj, Prod.mk.injEq] at h
      obtain ⟨rfl, rfl⟩ := h
      exact ⟨rfl, hsep⟩
    · have hdrop : t.dropWhile (· != sep) = [] := List.dropWhile_eq_nil_iff.2 fun c hc =>
        bne_iff_ne.2 (ne_of_mem_of_not_mem hc hmem)
      rw [cut?, hdrop] at h
      cases h
  · rintro ⟨rfl, hsep⟩
    exact cut?_append_cons hsep rest

end Text

namespace Path

variable {names : List Text} {name stem extension : Text}

/-- The components of a path are what stands between its slashes, but for what is empty or a single
dot. -/
lemma exists_components (path : Text) : ∃ parts, Text.joined ['/'] parts = path ∧
    (∀ part ∈ parts, '/' ∉ part) ∧
    components path = parts.filter fun part => part ≠ [] ∧ part ≠ ['.'] := by
  refine ⟨path.pieces '/', Text.joined_pieces '/' path, fun part hpart => ?_, ?_⟩
  · exact Text.not_mem_of_mem_piecesFrom List.not_mem_nil hpart
  · rw [components]
    refine List.filter_congr fun part _ => ?_
    rw [Bool.eq_iff_iff]
    simp

/-! ## Names and their extensions -/

lemma cutName?_eq_some_iff : cutName? name = some (stem, extension) ↔
    name = stem ++ '.' :: extension ∧ stem ≠ [] ∧ '.' ∉ extension := by
  have hcut (before rest : Text) : Text.cut? '.' name.reverse = some (before, rest) ↔
      name = rest.reverse ++ '.' :: before.reverse ∧ '.' ∉ before := by
    rw [Text.cut?_eq_some_iff, List.reverse_eq_iff]
    simp
  rw [cutName?, Option.bind_eq_some_iff]
  constructor
  · rintro ⟨⟨before, rest⟩, h, hsome⟩
    obtain ⟨rfl, hdot⟩ := (hcut before rest).1 h
    obtain ⟨hne, hsome⟩ := Option.ite_none_left_eq_some.1 hsome
    rw [Option.some_inj, Prod.mk.injEq] at hsome
    obtain ⟨rfl, rfl⟩ := hsome
    exact ⟨rfl, by simpa using hne, by simpa using hdot⟩
  · rintro ⟨rfl, hne, hdot⟩
    refine ⟨(extension.reverse, stem.reverse), (hcut _ _).2 ⟨by simp, by simpa using hdot⟩, ?_⟩
    simp [hne]

lemma fileName?_eq_some_iff : fileName? names = some name ↔
    (∃ above, names = above ++ [name]) ∧ name ≠ "..".toList := by
  rw [fileName?, Option.filter_eq_some_iff, List.getLast?_eq_some_iff, bne_iff_ne]

lemma isScript_iff : isScript names = true ↔
    ∃ name stem, fileName? names = some name ∧ cutName? name = some (stem, scriptExtension) := by
  rw [isScript, beq_iff_eq, extension?, Option.map_eq_some_iff]
  constructor
  · rintro ⟨⟨stem, extension⟩, h, rfl⟩
    obtain ⟨name, hname, hcut⟩ := Option.bind_eq_some_iff.1 h
    exact ⟨name, stem, hname, hcut⟩
  · rintro ⟨name, stem, hname, hcut⟩
    exact ⟨(stem, scriptExtension), Option.bind_eq_some_iff.2 ⟨name, hname, hcut⟩, rfl⟩

lemma isScript_and_stem?_iff : isScript names = true ∧ stem? names = some stem ↔
    stem ≠ [] ∧ ∃ above, names = above ++ [stem ++ ".fish".toList] := by
  constructor
  · rintro ⟨hscript, hstem⟩
    obtain ⟨name, stem', hname, hcut⟩ := isScript_iff.1 hscript
    obtain rfl : stem' = stem := by
      rw [stem?, hname, Option.map_some, hcut] at hstem
      exact Option.some_inj.1 hstem
    obtain ⟨⟨above, habove⟩, -⟩ := fileName?_eq_some_iff.1 hname
    obtain ⟨rfl, hne, -⟩ := cutName?_eq_some_iff.1 hcut
    exact ⟨hne, above, habove⟩
  · rintro ⟨hne, above, rfl⟩
    have hname : fileName? (above ++ [stem ++ ".fish".toList]) = some (stem ++ ".fish".toList) := by
      refine fileName?_eq_some_iff.2 ⟨⟨above, rfl⟩, fun hdots => ?_⟩
      simpa using congrArg List.getLast? hdots
    have hcut : cutName? (stem ++ ".fish".toList) = some (stem, scriptExtension) :=
      cutName?_eq_some_iff.2 ⟨rfl, hne, by decide⟩
    refine ⟨isScript_iff.2 ⟨_, stem, hname, hcut⟩, ?_⟩
    rw [stem?, hname, Option.map_some, hcut]
    rfl

end Path

namespace Document

/-! ## Documents -/

variable {names : List Text} {name : Text}

/-- A function is loaded from a script that is named after it, in a directory `functions`. -/
lemma autoloadedBy?_eq_some_iff : autoloadedBy? names = some name ↔
    name ≠ [] ∧ ∃ above, names = above ++ ["functions".toList, name ++ ".fish".toList] := by
  constructor
  · intro h
    obtain ⟨parent, hparent, h⟩ := Option.bind_eq_some_iff.1 h
    obtain ⟨dir, hdir, h⟩ := Option.bind_eq_some_iff.1 h
    obtain ⟨hasked, hstem⟩ := Option.ite_none_right_eq_some.1 h
    obtain ⟨hfunctions, hscript⟩ := Bool.and_eq_true_iff.1 hasked
    obtain rfl := eq_of_beq hfunctions
    obtain ⟨hne, above, rfl⟩ := Path.isScript_and_stem?_iff.1 ⟨hscript, hstem⟩
    obtain ⟨-, hparent⟩ := Option.ite_none_left_eq_some.1 hparent
    rw [List.dropLast_concat, Option.some_inj] at hparent
    obtain ⟨⟨above', habove⟩, -⟩ := Path.fileName?_eq_some_iff.1 hdir
    refine ⟨hne, above', ?_⟩
    rw [hparent, habove, List.append_assoc]
    rfl
  · rintro ⟨hne, above, rfl⟩
    have hsplit : above ++ ["functions".toList, name ++ ".fish".toList] =
        (above ++ ["functions".toList]) ++ [name ++ ".fish".toList] := by simp
    obtain ⟨hscript, hstem⟩ := Path.isScript_and_stem?_iff.2 ⟨hne, _, hsplit⟩
    have hparent : Path.parent? (above ++ ["functions".toList, name ++ ".fish".toList]) =
        some (above ++ ["functions".toList]) := by
      rw [hsplit, Path.parent?, if_neg (by simp), List.dropLast_concat]
    have hdir : Path.fileName? (above ++ ["functions".toList]) = some "functions".toList :=
      Path.fileName?_eq_some_iff.2 ⟨⟨above, rfl⟩, by decide⟩
    refine Option.bind_eq_some_iff.2 ⟨_, hparent, Option.bind_eq_some_iff.2 ⟨_, hdir, ?_⟩⟩
    rw [hscript, beq_self_eq_true, Bool.and_self, if_pos rfl, hstem]

variable {d : Document}

lemma isAutoloaded_and_autoloadName_iff :
    d.isAutoloaded = true ∧ d.autoloadName = name ↔ d.autoloadName? = some name := by
  rw [isAutoloaded, autoloadName]
  cases d.autoloadName? <;> simp

lemma check_eq_ok (h : d.autoloadName? ≠ some []) : d.check = .ok () := by
  refine if_neg fun hfails => ?_
  obtain ⟨hautoloaded, hempty⟩ := Bool.and_eq_true_iff.1 hfails
  exact h (isAutoloaded_and_autoloadName_iff.1 ⟨hautoloaded, List.isEmpty_iff.1 hempty⟩)

/-- A document with a path is autoloaded exactly if its path ends with a directory `functions` and a
script in it, and then under what stands before the extension of the script, which is not empty. So
such a document always passes the check, and a script with it has a report under every config. -/
theorem ofPath_autoload (path : Text) :
    (∃ parts, Text.joined ['/'] parts = path ∧ (∀ part ∈ parts, '/' ∉ part) ∧
      Path.components path = parts.filter fun part => part ≠ [] ∧ part ≠ ['.']) ∧
    ((ofPath path).isAutoloaded = true ↔ ∃ name above, name ≠ [] ∧
      Path.components path = above ++ ["functions".toList, name ++ ".fish".toList]) ∧
    (∀ name, (ofPath path).isAutoloaded = true ∧ (ofPath path).autoloadName = name ↔
      name ≠ [] ∧ ∃ above,
        Path.components path = above ++ ["functions".toList, name ++ ".fish".toList]) ∧
    (ofPath path).check = .ok () ∧
    ∀ label source config, ∃ report,
      (Script.mk label source (ofPath path)).check config = .ok report := by
  have hname : ∀ name, (ofPath path).autoloadName? = some name ↔ name ≠ [] ∧ ∃ above,
      Path.components path = above ++ ["functions".toList, name ++ ".fish".toList] := fun name =>
    autoloadedBy?_eq_some_iff
  have hcheck : (ofPath path).check = .ok () := check_eq_ok fun h => ((hname []).1 h).1 rfl
  refine ⟨Path.exists_components path, ?_, fun name => ?_, hcheck, fun label source config => ?_⟩
  · rw [isAutoloaded, Option.isSome_iff_exists]
    exact exists_congr fun name => (hname name).trans (by simp)
  · rw [isAutoloaded_and_autoloadName_iff, hname]
  · obtain ⟨ds, hds, -⟩ := Script.exists_diagnose (s := ⟨label, source, ofPath path⟩) hcheck
    exact ⟨_, Script.check_eq_ok.2 ⟨ds, hds, rfl⟩⟩

example : (ofPath "a/./functions//b.c.fish/".toList).autoloadName? = some "b.c".toList := by
  decide +kernel

example : (ofPath "functions/.fish".toList).autoloadName? = none := by decide +kernel

end Document

end FishScript
