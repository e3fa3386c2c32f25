/-
# Listings as expected texts

A listing that is expected is tidied: its lines are trimmed, and empty ones left out. The listing it
is compared with is not. So a listing can be expected only if each of its lines is trimmed
(`tidy_joined_iff`), and this is so unless a line has nothing behind the name of its code: a line
shows the first line of a text, and white space may be all that is on it.

Only source that fits nowhere has such a first line (`forall_findings_show_iff`). Hence the listing
of an input, taken as what is expected of it, makes the case pass exactly if there is none; and if
there is, nothing that is expected makes it pass (`runListing_listing`).
-/
import Mathlib
import FishScript.Proofs.Rules.Openings
import FishScript.TestFile.Run

namespace FishScript.TestFile

open Text (joined)

/-! ## Tidy listings -/

section Tidy

variable {v w t : Text} {vs ws : List Text}

/-- What stands on a line of a tidy listing: something, without white space around it. -/
structure IsTidyLine (w : Text) : Prop where
  trimmed : w.trim = w
  nonempty : w ≠ []
  unbroken : '\n' ∉ w

lemma IsTidyLine.isLine (h : IsTidyLine w) : Text.IsLine w := by
  refine ⟨h.unbroken, fun hlast => ?_⟩
  exact absurd ((Text.trim_eq_self_iff.1 h.trimmed).2 '\r' hlast) (by decide)

lemma tidy_joined (h : ∀ w ∈ ws, IsTidyLine w) : tidy (joined ['\n'] ws) = joined ['\n'] ws := by
  have hlast : ws.getLast? ≠ some [] := fun hlast =>
    (h [] (List.mem_of_getLast? hlast)).nonempty rfl
  have htrim : ws.map Text.trim = ws :=
    (List.map_congr_left fun w hw => (h w hw).trimmed).trans (List.map_id ws)
  have hfilter : (ws.filter fun line => !line.isEmpty) = ws :=
    List.filter_eq_self.2 fun w hw => by simpa using (h w hw).nonempty
  rw [tidy, Text.lines_joined (fun w hw => (h w hw).isLine) hlast, htrim, hfilter]

lemma exists_tidy (t : Text) : ∃ ws, tidy t = joined ['\n'] ws ∧ ∀ w ∈ ws, IsTidyLine w := by
  refine ⟨_, rfl, fun w hw => ?_⟩
  obtain ⟨hw, hne⟩ := List.mem_filter.1 hw
  obtain ⟨line, hline, rfl⟩ := List.mem_map.1 hw
  exact ⟨Text.trim_trim line, by simpa using hne, fun hmem =>
    Text.not_mem_of_mem_linesFrom List.not_mem_nil hline (Text.mem_of_mem_trim hmem)⟩

lemma filter_pieces_joined (hvs : ∀ v ∈ vs, v ≠ [] ∧ '\n' ∉ v) :
    ((joined ['\n'] vs).pieces '\n').filter (fun line => !line.isEmpty) = vs := by
  by_cases hnil : vs = []
  · subst hnil
    rfl
  · rw [Text.pieces_joined (fun v hv => (hvs v hv).2) hnil]
    exact List.filter_eq_self.2 fun v hv => by simpa using (hvs v hv).1

/-- Lines are left as they are by tidying, and are what tidying leaves of some text, exactly if they
are trimmed. -/
theorem tidy_joined_iff (hvs : ∀ v ∈ vs, v ≠ [] ∧ '\n' ∉ v) :
    (tidy (joined ['\n'] vs) = joined ['\n'] vs ↔ ∀ v ∈ vs, v.trim = v) ∧
      ((∃ t, tidy t = joined ['\n'] vs) ↔ ∀ v ∈ vs, v.trim = v) := by
  have hself : (∀ v ∈ vs, v.trim = v) → tidy (joined ['\n'] vs) = joined ['\n'] vs := fun h =>
    tidy_joined fun v hv => ⟨h v hv, (hvs v hv).1, (hvs v hv).2⟩
  have htrimmed : (∃ t, tidy t = joined ['\n'] vs) → ∀ v ∈ vs, v.trim = v := by
    rintro ⟨t, ht⟩
    obtain ⟨ws, heq, hws⟩ := exists_tidy t
    have hsame : ws = vs := by
      rw [← filter_pieces_joined hvs, ← ht, heq,
        filter_pieces_joined fun w hw => ⟨(hws w hw).nonempty, (hws w hw).unbroken⟩]
    exact hsame ▸ fun w hw => (hws w hw).trimmed
  exact ⟨⟨fun h => htrimmed ⟨_, h⟩, hself⟩, htrimmed, fun h => ⟨_, hself h⟩⟩

end Tidy

/-! ## The lines of a listing -/

section Listing

variable {source : Text} {d : Diagnostic} {ds : List Diagnostic}

lemma listingLine_ne_nil : listingLine source d ≠ [] := by
  simp [listingLine]

lemma not_mem_listingLine : '\n' ∉ listingLine source d := by
  have hname : '\n' ∉ d.code.name.toList := by cases d.code <;> decide
  have hshown : ∀ t : Text, '\n' ∉ t.firstLine.trim := fun t h =>
    Text.not_mem_firstLine t (Text.mem_of_mem_trim h)
  simp [listingLine, hname, hshown]

lemma trim_listingLine_iff : (listingLine source d).trim = listingLine source d ↔
    ¬ Text.Blank ((d.span.text? source).getD []).firstLine := by
  have hname : ∃ c rest, d.code.name.toList = c :: rest ∧ Text.isBlank c = false := by
    cases d.code <;> exact ⟨_, _, rfl, by decide⟩
  obtain ⟨c, rest, hname, hc⟩ := hname
  rw [← Text.trim_eq_nil_iff, Text.trim_eq_self_iff, listingLine, hname]
  generalize hshown : (((d.span.text? source).getD []).firstLine).trim = shown
  have htrimmed : shown.trim = shown := by rw [← hshown, Text.trim_trim]
  constructor
  · rintro ⟨-, hlast⟩ rfl
    -- nothing stands behind the space
    exact absurd (hlast ' ' List.getLast?_concat) (by decide)
  · intro hne
    refine ⟨by simpa using hc, ?_⟩
    rw [List.append_cons, List.getLast?_append_of_ne_nil _ hne]
    exact (Text.trim_eq_self_iff.1 htrimmed).2

/-- A listing is left as it is by tidying, and is what tidying leaves of some text, exactly if its
lines are trimmed. -/
lemma tidy_listing_iff (source : Text) (ds : List Diagnostic) :
    (tidy (listing source ds) = listing source ds ↔
      ∀ v ∈ ds.map (listingLine source), v.trim = v) ∧
    ((∃ t, tidy t = listing source ds) ↔ ∀ v ∈ ds.map (listingLine source), v.trim = v) :=
  tidy_joined_iff (List.forall_mem_map.2 fun _ _ => ⟨listingLine_ne_nil, not_mem_listingLine⟩)

lemma check_of_diagnose {tree : Tree} {document : Document}
    (hds : tree.diagnose document = .ok ds) : document.check = .ok () := by
  cases hcheck : document.check with
  | ok => rfl
  | error r =>
    rw [Tree.diagnose, Tree.pass, hcheck] at hds
    cases hds

/-- The lines that list the diagnostics of a source are trimmed exactly if source that fits nowhere
shows something on its first line. -/
lemma forall_trim_listingLine_iff {document : Document}
    (hds : (Tree.mk source [rootOf source]).diagnose document = .ok ds) :
    (∀ v ∈ ds.map (listingLine source), v.trim = v) ↔ ErrorsShow source (rootOf source) := by
  have hfound := Tree.diagnose_eq source (rootOf source) (check_of_diagnose hds)
  obtain rfl := Except.ok.inj (hds.symm.trans hfound)
  rw [← forall_findings_show_iff source document]
  simp only [List.forall_mem_map, trim_listingLine_iff]
  rfl

end Listing

/-! ## Cases that expect a listing -/

section Cases

variable {b : Block} {tree : Tree} {ds : List Diagnostic}

lemma compare_eq_pass_iff {t u : Text} : Outcome.compare t u = .pass ↔ t = u := by
  unfold Outcome.compare
  split <;> simp [*]

lemma runListing_eq_pass_iff (htree : parse b.input = .ok tree)
    (hds : tree.diagnose (documentOf b) = .ok ds) (expected : Text) :
    runListing { b with expected } = .pass ↔ tidy expected = listing b.input ds := by
  have hrun : runListing { b with expected } = .compare (tidy expected) (listing b.input ds) := by
    have hbind : ((parse b.input).bind fun tree => tree.diagnose (documentOf b)) = .ok ds := by
      rw [htree]
      exact hds
    rw [runListing, show documentOf { b with expected } = documentOf b from rfl, hbind]
  rw [hrun, compare_eq_pass_iff]

/-- Take the listing of an input as what is expected of it. The case passes, and tidying leaves the
listing as it is, exactly if no node for source that fits nowhere has only white space on its first
line; otherwise the case fails whatever is expected. No node does if no unexpected token is white
space. -/
theorem runListing_listing (b : Block) {tree : Tree} {ds : List Diagnostic}
    (htree : parse b.input = .ok tree) (hds : tree.diagnose (documentOf b) = .ok ds) :
    ∃ root, tree = ⟨b.input, [root]⟩ ∧
      (runListing { b with expected := listing b.input ds } = .pass ↔ ErrorsShow b.input root) ∧
      (tidy (listing b.input ds) = listing b.input ds ↔ ErrorsShow b.input root) ∧
      ((∃ expected, runListing { b with expected } = .pass) ↔ ErrorsShow b.input root) ∧
      ((∀ tok ∈ tokens b.input, tok.kind = .unexpected → ¬ Text.Blank tok.text) →
        ErrorsShow b.input root) := by
  obtain rfl : tree = ⟨b.input, [rootOf b.input]⟩ := by
    rw [parse_eq] at htree
    exact (Except.ok.inj htree).symm
  have hlines := tidy_listing_iff b.input ds
  rw [forall_trim_listingLine_iff hds] at hlines
  have hrun := runListing_eq_pass_iff htree hds
  refine ⟨rootOf b.input, rfl, (hrun _).trans hlines.1, hlines.1, ?_, errorsShow_of_tokens⟩
  exact (exists_congr hrun).trans hlines.2

end Cases

/-- A case whose input has errors that go on behind their first lines. -/
def longErrors : Block :=
  ⟨"long".toList, 1, [("autoload".toList, "g".toList)],
    "function f\n  set -U EDITOR vim\n  'a\nend |\n".toList, []⟩

theorem runListing_listing_longErrors : ∃ tree ds,
    parse longErrors.input = .ok tree ∧ tree.diagnose (documentOf longErrors) = .ok ds ∧
      listing longErrors.input ds =
        "missingEnd function f\nuniversalVariable -U\nsyntaxError 'a".toList ∧
      runListing { longErrors with expected := listing longErrors.input ds } = .pass := by
  have hds := Tree.diagnose_eq longErrors.input (rootOf longErrors.input)
    (show (documentOf longErrors).check = .ok () from rfl)
  obtain ⟨root, hroot, hpass, -, -, hshow⟩ := runListing_listing longErrors (parse_eq _) hds
  exact ⟨_, _, parse_eq _, hds, by decide +kernel, hpass.2 (hshow (by decide +kernel))⟩

/-- A case whose input has an error that is a space, one that no word may hold. -/
def blankError : Block := ⟨"blank".toList, 1, [], "\u00a0\n|".toList, []⟩

theorem exists_listing_unexpectable : ∃ tree ds,
    parse blankError.input = .ok tree ∧ tree.diagnose (documentOf blankError) = .ok ds ∧
      tidy (listing blankError.input ds) ≠ listing blankError.input ds ∧
      runListing { blankError with expected := listing blankError.input ds } =
        .fail "syntaxError\nsyntaxError |".toList "syntaxError \nsyntaxError |".toList := by
  have hds := Tree.diagnose_eq blankError.input (rootOf blankError.input)
    (show (documentOf blankError).check = .ok () from rfl)
  exact ⟨_, _, parse_eq _, hds, by decide +kernel, by decide +kernel⟩

end FishScript.TestFile
