/-
# Diagnostics can be shown

A diagnostic blames a node that is a piece of the source, never a root without text. So it starts
at a character, and it is shown with the whole line on which this character stands
(`diagnose_printable`).
-/
import FishScript.Proofs.Rules.Validation
import FishScript.Proofs.Token.Lines
import FishScript.Proofs.Tree.Pieces

namespace FishScript

/-! ## The line around an offset -/

/-- The line of the source around an offset, without the line feeds at its ends. -/
structure IsLineAt (source : Text) (offset : Nat) (line : Text) : Prop where
  unbroken : '\n' ∉ line
  around : ∃ above left right below, source = above ++ left ++ right ++ below ∧
    line = left ++ right ∧ offset = (above ++ left).byteLength ∧
    (∀ c ∈ above.getLast?, c = '\n') ∧ ∀ c ∈ below.head?, c = '\n'

lemma not_mem_takeWhile_ne (c : Char) (t : Text) : c ∉ t.takeWhile (· != c) := fun h => by
  simpa using List.mem_takeWhile_imp h

lemma contextLine_eq {front rest : Text} (hne : rest ≠ []) :
    contextLine front.byteLength (front ++ rest) =
      .ok (some ((front.reverse.takeWhile (· != '\n')).reverse ++ rest.takeWhile (· != '\n'))) := by
  have hpos := byteLength_pos hne
  have htake : (front ++ rest).take ((front ++ rest).length - rest.length) = front := by simp
  rw [contextLine, if_neg (by rw [Text.byteLength_append]; omega), Text.skipBytes?_byteLength]
  simp only [htake]

lemma exists_contextLine {source : Text} {s : Span} (h : s.Within source) :
    ∃ line, contextLine s.start source = .ok (some line) ∧ IsLineAt source s.start line := by
  obtain ⟨front, piece, below, rfl, hne, rfl⟩ := h.pieces
  rw [List.append_assoc]
  have hrest : piece ++ below ≠ [] := List.append_ne_nil_of_left_ne_nil hne below
  have hfront : (front.reverse.dropWhile (· != '\n')).reverse ++
      (front.reverse.takeWhile (· != '\n')).reverse = front := by
    rw [← List.reverse_append, List.takeWhile_append_dropWhile, List.reverse_reverse]
  refine ⟨_, contextLine_eq hrest, ?_, (front.reverse.dropWhile (· != '\n')).reverse,
    (front.reverse.takeWhile (· != '\n')).reverse, (piece ++ below).takeWhile (· != '\n'),
    (piece ++ below).dropWhile (· != '\n'), ?_, rfl, ?_, ?_, head?_dropWhile_ne _ _⟩
  · rw [List.mem_append, List.mem_reverse, not_or]
    exact ⟨not_mem_takeWhile_ne _ _, not_mem_takeWhile_ne _ _⟩
  · rw [hfront, List.append_assoc, List.takeWhile_append_dropWhile]
  · rw [hfront]
  · rw [List.getLast?_reverse]
    exact head?_dropWhile_ne _ _

/-! ## Diagnostics -/

/-- The diagnostic is about a piece of the source and is shown with the line on which the piece
begins. -/
structure Diagnostic.Printable (source : Text) (d : Diagnostic) : Prop where
  nonempty : d.span.start < d.span.stop
  inside : d.span.stop ≤ source.byteLength
  boundaries : Text.isBoundary d.span.start source = true ∧
    Text.isBoundary d.span.stop source = true
  slice : ∃ piece, piece ≠ [] ∧ d.span.text? source = some piece
  shown : ∃ line, IsLineAt source d.span.start line ∧
    d.format source = .ok (d.header source ++ '\n' :: (contextLead ++ line))

lemma Span.Within.printable {source : Text} {d : Diagnostic} (h : d.span.Within source) :
    d.Printable source where
  nonempty := h.nonempty
  inside := by
    obtain ⟨above, piece, below, rfl, -, hspan⟩ := h.pieces
    rw [hspan, Text.byteLength_append (above ++ piece)]
    exact Nat.le_add_right _ _
  boundaries := ⟨h.starts, h.stops⟩
  slice := by
    obtain ⟨above, piece, below, rfl, hne, hspan⟩ := h.pieces
    refine ⟨piece, hne, ?_⟩
    rw [hspan, Span.text?, Text.byteLength_append]
    exact Text.slice?_append above piece below
  shown := by
    obtain ⟨line, hline, hat⟩ := exists_contextLine h
    refine ⟨line, hat, ?_⟩
    rw [Diagnostic.format, hline]
    rfl

section Findings

variable {source : Text} {document : Document} {f : Finding}

lemma Check.mem_found {α : Type} {check : Check α} {xs : List α} {seen : DefinedNames}
    (h : f ∈ check.found seen xs) : ∃ x ∈ xs, ∃ seen', f ∈ (check x seen').1 := by
  induction xs generalizing seen with
  | nil => cases h
  | cons x xs ih =>
    rcases List.mem_append.1 h with h | h
    · exact ⟨x, List.mem_cons_self, seen, h⟩
    · obtain ⟨x', hx', h⟩ := ih h
      exact ⟨x', List.mem_cons_of_mem x hx', h⟩

lemma Tree.mem_preorder_of_mem_findings {t : Tree} {root : Node}
    (hf : f ∈ t.namingFindings root document ++ t.walkFindings root) :
    f.node ∈ root.preorder := by
  rcases List.mem_append.1 hf with hf | hf
  · rw [namingFindings, ← Naming.found_check] at hf
    obtain ⟨g, hg, seen, hf⟩ := Check.mem_found hf
    exact Naming.mem_preorder_of_mem_check hg hf
  · obtain ⟨s, hs, hf⟩ := List.mem_flatMap.1 hf
    exact mem_preorder_of_mem_firstFindings hs hf

lemma Tree.findings_eq_nil {t : Tree} {root : Node} (hk : root.kind = .program)
    (hchildren : root.children = []) :
    t.namingFindings root document ++ t.walkFindings root = [] := by
  have hpreorder : root.preorder = [root] := by
    rw [root.preorder_eq, hchildren]
    rfl
  have hsites : root.sites none [] [] = [⟨root, none, [], []⟩] := by
    rw [root.sites_eq, hchildren]
    rfl
  have hnaming : t.namingFindings root document = [] := by
    rw [namingFindings, hpreorder, Naming.namedFunctions, List.filter_cons_of_neg (by simp [hk])]
    rfl
  have hwalk : t.walkFindings root = [] := by
    rw [walkFindings, hsites]
    simp [siteRules, firstFindings, Balance.rule, Variables.rule, Reachability.afterReturn,
      Reachability.trailingChain, Node.isError, hk]
  rw [hnaming, hwalk, List.append_nil]

lemma within_of_mem_findings
    (hf : f ∈ (Tree.mk source [rootOf source]).namingFindings (rootOf source) document ++
      (Tree.mk source [rootOf source]).walkFindings (rootOf source)) :
    f.node.span.Within source := by
  obtain hwithin | ⟨-, hchildren⟩ :=
    within_of_mem_preorder (Tree.mem_preorder_of_mem_findings hf)
  · exact hwithin
  · obtain ⟨children, heq, -⟩ := parseTerminals_leaves (limited source)
    have hk : (rootOf source).kind = .program := by rw [rootOf, heq]; rfl
    rw [Tree.findings_eq_nil hk hchildren] at hf
    cases hf

lemma exists_diagnose_within (source : Text) {document : Document}
    (hd : document.check = .ok ()) :
    ∃ ds, (Tree.mk source [rootOf source]).diagnose document = .ok ds ∧
      ∀ d ∈ ds, d.span.Within source := by
  refine ⟨_, Tree.diagnose_eq source _ hd, fun d hd => ?_⟩
  obtain ⟨f, hf, rfl⟩ := List.mem_map.1 hd
  exact within_of_mem_findings hf

end Findings

/-- Every diagnostic of a source is about a piece of it that is not empty, and can be shown with the
line on which it begins. -/
theorem diagnose_printable (source : Text) {document : Document} (hd : document.check = .ok ()) :
    ∃ root ds, parse source = .ok ⟨source, [root]⟩ ∧
      (Tree.mk source [root]).diagnose document = .ok ds ∧ ∀ d ∈ ds, d.Printable source := by
  obtain ⟨ds, hds, hwithin⟩ := exists_diagnose_within source hd
  exact ⟨rootOf source, ds, parse_eq source, hds, fun d hd => (hwithin d hd).printable⟩

/-- Words of several bytes before, in and behind what is wrong, which no `end` closes. -/
def accented : Text := "echo é; begin\n  set -U été ñ".toList

/-- Its diagnostics are shown with the lines on which they begin. -/
theorem diagnose_printable_accented :
    Document.anonymous.check = .ok () ∧
    ∃ root ds, parse accented = .ok ⟨accented, [root]⟩ ∧
      (Tree.mk accented [root]).diagnose .anonymous = .ok ds ∧
      ds.map (fun d => (d.format accented).toOption) =
        [some ("1:9: error [1001]: missing 'end' for this 'begin' block\n".toList ++
            "  | echo é; begin".toList),
          some ("2:7: warning [4001]: '-U' makes 'été' universal, ".toList ++
            "shared with every fish session\n  |   set -U été ñ".toList)] ∧
      ∀ d ∈ ds, d.Printable accented := by
  have hcheck : Document.anonymous.check = .ok () := rfl
  obtain ⟨root, ds, hparse, hds, hprintable⟩ := diagnose_printable accented hcheck
  obtain rfl := eq_rootOf_of_parse hparse
  have hshown : ((Tree.mk accented [rootOf accented]).diagnose .anonymous).toOption.map
      (·.map fun d => (d.format accented).toOption) =
        some [some ("1:9: error [1001]: missing 'end' for this 'begin' block\n".toList ++
            "  | echo é; begin".toList),
          some ("2:7: warning [4001]: '-U' makes 'été' universal, ".toList ++
            "shared with every fish session\n  |   set -U été ñ".toList)] := by
    decide +kernel
  rw [hds] at hshown
  exact ⟨hcheck, rootOf accented, ds, hparse, hds, Option.some_inj.1 hshown, hprintable⟩

end FishScript
