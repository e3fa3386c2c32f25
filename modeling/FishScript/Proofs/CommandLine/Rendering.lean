/-
# Reports as lines

A report shows each diagnostic on two lines: where it is and what it says, and the line of the
source on which it starts. What it says may quote the source, and only here a line feed can get
into the first line: names, options and variables are quoted as they stand, and a word between
quotes may hold line feeds (`newline_mem_standard_iff`). So a report has two lines for each
diagnostic, and only the first of the two is coloured, exactly when no text that it quotes holds a
line feed (`render_lines`).
-/
import Mathlib
import FishScript.Proofs.CommandLine.Outcome
import FishScript.Proofs.Grammar.Labels
import FishScript.Proofs.Rules.Sequence
import FishScript.Proofs.Text.Lines

namespace FishScript

/-! ## What a message quotes -/

namespace Finding

/-- The texts that the standard wording quotes as they stand. -/
def quoted (source : Text) (document : Document) (f : Finding) : List Text :=
  match f.code with
  | .missingEnd | .extraEnd | .syntaxError | .unreachableCode => []
  | .duplicateFunctionName | .privateHelperFunction | .pathVariable => [f.node.text source]
  | .missingAutoloadedFunctionName => [document.autoloadName, f.node.text source]
  | .universalVariable | .pathFlag =>
    f.node.text source :: (Wording.definedName? source f).toList

end Finding

section Messages

variable {source : Text} {document : Document} {f : Finding} {t : Text}

lemma newline_mem_named : '\n' ∈ Wording.named t ↔ '\n' ∈ t := by
  simp [Wording.named]

/-- A line feed in a message comes from a text that it quotes as it stands: other words of the
source are keywords, and garbage is quoted up to the end of its first line. -/
theorem newline_mem_standard_iff :
    '\n' ∈ Wording.standard source document f ↔ ∃ w ∈ f.quoted source document, '\n' ∈ w := by
  unfold Wording.standard Finding.quoted
  cases hcode : f.code with
  | missingEnd =>
    cases hopener : Balance.opener? f.node source with
    | none => simp [Code.summary]
    | some w =>
      have hw : '\n' ∉ w := by
        have hsome := List.find?_some hopener
        obtain ⟨b, hb⟩ := Option.isSome_iff_exists.1 hsome
        rw [Terminal.ofOpener?_eq_some hb]
        cases b <;> decide
      simp [newline_mem_named, hw]
  | syntaxError => simp [newline_mem_named, Text.not_mem_firstLine]
  | universalVariable | pathFlag =>
    cases Wording.definedName? source f <;> simp [newline_mem_named]
  | _ => simp [newline_mem_named, Code.summary]

lemma newline_mem_header_iff {d : Diagnostic} :
    '\n' ∈ d.header source ↔ '\n' ∈ d.message := by
  have hseverity : '\n' ∉ d.severity.name.toList := by cases d.severity <;> decide
  simp [Diagnostic.header, Diagnostic.display, Position.format, Text.not_mem_ofNat, hseverity]

end Messages

/-! ## What words are quoted -/

section Words

variable {source : Text} {document : Document} {s : Site} {p n : Node} {f : Finding}

lemma children_eq_nil_of_isLeaf (hn : n ∈ (rootOf source).preorder) (hk : n.kind.isLeaf = true) :
    n.children = [] := by
  obtain ⟨-, ⟨-, hnone⟩ | hplaced⟩ :=
    schema_of_mem_preorder (fun _ (ht : _ ∈ limited source) => known_of_mem_limited ht) hn
  · exact hnone
  · rw [hplaced.inner] at hk
    cases hk

lemma exists_word (hp : p ∈ (rootOf source).preorder) (hn : n ∈ p.children)
    (hk : n.kind.isLeaf = true) (hfield : n.field.isSome) :
    ∃ tok ∈ tokens source, tok.kind = .word ∧ n.text source = tok.text := by
  have hnone := children_eq_nil_of_isLeaf
    (mem_preorder_trans hp (Node.mem_preorder_of_child hn n.mem_preorder_self)) hk
  obtain ⟨tok, htok, hword, -, htext⟩ := exists_word_of_role hp hn hnone hfield
  exact ⟨tok, htok, hword, htext⟩

lemma exists_word_of_command (hp : p ∈ (rootOf source).preorder) (hk : p.kind = .command)
    (hn : n ∈ p.children) (hleaf : n.kind.isLeaf = true) :
    ∃ tok ∈ tokens source, tok.kind = .word ∧ n.text source = tok.text :=
  exists_word hp hn hleaf
    ((labelled_of_mem_preorder hp).arguments hk n.part (List.mem_map_of_mem hn)).2

lemma exists_word_of_name {g : Naming.NamedFunction}
    (hg : g ∈ Naming.namedFunctions (rootOf source).preorder) :
    ∃ tok ∈ tokens source, tok.kind = .word ∧ g.name.text source = tok.text := by
  obtain ⟨hp, -, hname⟩ := Naming.mem_namedFunctions.1 hg
  obtain ⟨hmem, hfield⟩ := Naming.mem_of_childByField? hname
  have hk : g.name.kind = .word :=
    (arranged_of_mem_preorder hp).names g.name.part (List.mem_map_of_mem hmem) hfield
  exact exists_word hp hmem (by rw [hk]; rfl) (by rw [hfield]; rfl)

lemma exists_word_of_mem_variables (hs : s ∈ (rootOf source).sites none [] [])
    (hf : f ∈ Variables.rule source s) :
    ∀ w ∈ f.node.text source :: (Wording.definedName? source f).toList,
      ∃ tok ∈ tokens source, tok.kind = .word ∧ w = tok.text := by
  have hk := Variables.kind_of_mem hf
  have hparent := (Variables.family_parent_of_mem f hf).2
  have hblames := Variables.blames.1 f hf
  obtain ⟨p, hp, hparent', hcommand, hchildren⟩ := exists_command hs hk
  -- whatever is blamed is an argument of the command that sets the variable
  obtain ⟨hn, hleaf⟩ : f.node ∈ p.children ∧ f.node.kind.isLeaf = true := by
    generalize f.node = n at hblames
    cases hblames with
    | here => exact ⟨by simp [hchildren], by rw [hk]; rfl⟩
    | below herror =>
      rw [hk] at herror
      cases herror
    | beside _ hbefore hoption => exact ⟨by simp [hchildren, hbefore], by rw [hoption]; rfl⟩
    | behind hruns =>
      obtain h | h := hruns.kind <;> rw [hk] at h <;> cases h
  refine List.forall_mem_cons.2 ⟨exists_word_of_command hp hcommand hn hleaf, fun w hw => ?_⟩
  rw [Wording.definedName?, hparent, hparent', Option.bind_some, Option.mem_toList,
    Option.map_eq_some_iff] at hw
  obtain ⟨v, hv, rfl⟩ := hw
  have hkind : v.kind = .variableDefinition := by simpa using List.find?_some hv
  exact exists_word_of_command hp hcommand (List.mem_filter.1 (List.mem_of_find?_eq_some hv)).1
    (by rw [hkind]; rfl)

/-- The standard wording quotes words of the source and the name of the expected function. -/
theorem exists_word_of_mem_quoted
    (hf : f ∈ (Tree.mk source [rootOf source]).findings (rootOf source) document) :
    ∀ w ∈ f.quoted source document, w = document.autoloadName ∨
      ∃ tok ∈ tokens source, tok.kind = .word ∧ w = tok.text := by
  rcases List.mem_append.1 hf with hf | hf
  · have hfamily := Naming.family_of_mem _ _ f hf
    rw [Tree.namingFindings, ← Naming.found_check] at hf
    obtain ⟨g, hg, seen, hf⟩ := Check.mem_found hf
    obtain ⟨code, -, rfl⟩ := List.mem_map.1 hf
    have hword := exists_word_of_name hg
    cases code with
    | duplicateFunctionName | privateHelperFunction => simp [Finding.quoted, hword]
    | missingAutoloadedFunctionName => simp [Finding.quoted, hword]
    | _ => cases hfamily
  · obtain ⟨s, hs, hf⟩ := List.mem_flatMap.1 hf
    have hnone : f.code.family = .blocks ∨ f.code.family = .reachability →
        ∀ w ∈ f.quoted source document, False := by
      intro hfamily w hw
      cases hcode : f.code <;> simp [hcode, Code.family, Finding.quoted] at hfamily hw
    obtain hf | ⟨-, hf | hf | ⟨-, hf⟩⟩ := mem_firstFindings hf
    · exact fun w hw => (hnone (.inl (Balance.family_of_mem f hf)) w hw).elim
    · have hwords := exists_word_of_mem_variables hs hf
      have hfamily := Variables.family_of_mem f hf
      intro w hw
      refine .inr (hwords w ?_)
      cases hcode : f.code <;> simp [hcode, Code.family, Finding.quoted] at hfamily hw ⊢ <;>
        simp [hw]
    · exact fun w hw => (hnone (.inr (Reachability.family_of_mem_afterReturn f hf)) w hw).elim
    · exact fun w hw => (hnone (.inr (Reachability.family_of_mem_trailingChain f hf)) w hw).elim

end Words

/-! ## Reports -/

/-- The line of the source on which a diagnostic starts. -/
def Diagnostic.sourceLine (source : Text) (d : Diagnostic) : Text :=
  ((contextLine d.span.start source).toOption.join).getD []

/-- A diagnostic about a piece of the source is shown with its header and the line of the source on
which it starts. -/
lemma Diagnostic.format_eq {source : Text} {d : Diagnostic} (h : d.span.Within source) :
    IsLineAt source d.span.start (d.sourceLine source) ∧
      d.format source = .ok (d.header source ++ '\n' :: (contextLead ++ d.sourceLine source)) := by
  obtain ⟨line, hline, hat⟩ := exists_contextLine h
  have heq : d.sourceLine source = line := by
    rw [sourceLine, hline]
    rfl
  rw [heq, format, hline]
  exact ⟨hat, rfl⟩

namespace Report

/-- The first line that is shown of a diagnostic. -/
def headerLine (r : Report) (source : Text) (d : Diagnostic) : Text :=
  r.path ++ ':' :: d.header source

/-- The lines of a report: for each diagnostic its header, which may be coloured, and the line of
the source on which it starts. -/
def linesOf (r : Report) (source : Text) (color : Bool) : List Text :=
  r.diagnostics.flatMap fun d =>
    [if color then d.severity.paint (r.headerLine source d) else r.headerLine source d,
      Diagnostic.contextLead ++ d.sourceLine source]

section Lines

variable {r : Report} {source : Text} {d : Diagnostic} {color : Bool}

lemma length_linesOf : (r.linesOf source color).length = 2 * r.diagnostics.length := by
  simp [linesOf, List.length_flatMap, List.map_const', mul_comm]

lemma newline_mem_headerLine_iff (hpath : '\n' ∉ r.path) :
    ('\n' ∈ if color then d.severity.paint (r.headerLine source d) else r.headerLine source d) ↔
      '\n' ∈ d.message := by
  have hpaint : ∃ front back, '\n' ∉ front ∧ '\n' ∉ back ∧
      ∀ t, d.severity.paint t = front ++ t ++ back := by
    cases d.severity <;> exact ⟨_, _, by decide, by decide, fun t => rfl⟩
  obtain ⟨front, back, hfront, hback, heq⟩ := hpaint
  cases color <;> simp [heq, hfront, hback, headerLine, hpath, newline_mem_header_iff]

/-- A diagnostic about a piece of the source is shown on two lines, if its header is a line. -/
lemma block_eq (h : d.span.Within source) (hheader : '\n' ∉ d.header source) :
    block r.path source color d =
      .ok ([if color then d.severity.paint (r.headerLine source d) else r.headerLine source d,
        Diagnostic.contextLead ++ d.sourceLine source].flatMap (· ++ ['\n'])) := by
  have hall : ∀ c ∈ d.header source, (c != '\n') = true := fun c hc => by
    simpa using ne_of_mem_of_not_mem hc hheader
  rw [block, (Diagnostic.format_eq h).2]
  simp [headerLine, Except.map, List.takeWhile_append_of_pos hall,
    List.dropWhile_append_of_pos hall]

/-- Where all headers are lines, a report consists of its lines. -/
lemma render_eq (h : ∀ d ∈ r.diagnostics, d.span.Within source ∧ '\n' ∉ d.header source) :
    r.render source color = .ok ((r.linesOf source color).flatMap (· ++ ['\n'])) := by
  obtain ⟨blocks, hblocks, hall⟩ := exists_mapM_ok (f := block r.path source color)
    fun d hd => ⟨_, block_eq (h d hd).1 (h d hd).2⟩
  rw [render, hblocks, linesOf, List.flatMap_assoc]
  refine congrArg Except.ok ?_
  generalize r.diagnostics = ds at h hall
  clear hblocks
  induction hall with
  | nil => rfl
  | @cons d block ds blocks hblock _ ih =>
    obtain ⟨⟨hwithin, hheader⟩, hds⟩ := List.forall_mem_cons.1 h
    rw [block_eq hwithin hheader, Except.ok.injEq] at hblock
    rw [List.flatten_cons, List.flatMap_cons, ih hds, hblock]

lemma not_newline_mem_linesOf_iff (h : ∀ d ∈ r.diagnostics, d.span.Within source)
    (hpath : '\n' ∉ r.path) : (∀ w ∈ r.linesOf source color, '\n' ∉ w) ↔
      ∀ d ∈ r.diagnostics, '\n' ∉ d.message := by
  have hcontext : ∀ d ∈ r.diagnostics, '\n' ∉ Diagnostic.contextLead ++ d.sourceLine source := by
    intro d hd
    have hunbroken := (Diagnostic.format_eq (h d hd)).1.unbroken
    simpa [Diagnostic.contextLead] using hunbroken
  simp only [linesOf, List.forall_mem_flatMap, List.forall_mem_cons, List.not_mem_nil,
    newline_mem_headerLine_iff hpath]
  exact forall₂_congr fun d hd => by simp [hcontext d hd]

/-- What is rendered has the lines of the report exactly when no message holds a line feed. -/
theorem pieces_render_iff (h : ∀ d ∈ r.diagnostics, d.span.Within source) (hpath : '\n' ∉ r.path)
    {out : Text} (hout : r.render source color = .ok out) :
    out.pieces '\n' = r.linesOf source color ++ [[]] ↔
      ∀ d ∈ r.diagnostics, '\n' ∉ d.message := by
  have hiff : (∀ w ∈ r.linesOf source color, '\n' ∉ w) ↔ ∀ d ∈ r.diagnostics, '\n' ∉ d.message :=
    not_newline_mem_linesOf_iff h hpath
  rw [← hiff]
  constructor
  · intro heq w hw
    refine Text.not_mem_of_mem_piecesFrom List.not_mem_nil (t := out) ?_
    show w ∈ out.pieces '\n'
    rw [heq]
    exact List.mem_append_left _ hw
  · intro hlines
    have hmessages := (not_newline_mem_linesOf_iff h hpath).1 hlines
    rw [render_eq fun d hd => ⟨h d hd, newline_mem_header_iff.not.2 (hmessages d hd)⟩] at hout
    obtain rfl := Except.ok.inj hout
    exact Text.pieces_flatMap hlines

end Lines

end Report

namespace Script

/-- What is quoted in the report of a script with the root holds no line feeds. -/
def QuotesLines (config : LintConfig) (root : Node) (s : Script) : Prop :=
  ∀ f ∈ (Tree.mk s.source [root]).findings root s.document, config.isEnabled f.code = true →
    ∀ w ∈ f.quoted s.source s.document, '\n' ∉ w

lemma check_eq (s : Script) (config : LintConfig) (hd : s.document.check = .ok ()) :
    s.check config = .ok ⟨s.label, config.apply
      (((Tree.mk s.source [rootOf s.source]).findings (rootOf s.source) s.document).map
        (·.diagnostic .standard s.source s.document))⟩ :=
  check_eq_ok.2 ⟨_, by rw [parse_eq]; exact Tree.diagnose_eq s.source (rootOf s.source) hd, rfl⟩

lemma not_newline_mem_messages_iff {config : LintConfig} {root : Node} {s : Script} :
    (∀ d ∈ config.apply (((Tree.mk s.source [root]).findings root s.document).map
      (·.diagnostic .standard s.source s.document)), '\n' ∉ d.message) ↔
        s.QuotesLines config root := by
  constructor
  · intro h f hf henabled w hw hmem
    have hreported : (f.diagnostic .standard s.source s.document).withSeverity
        (config.severityOf f.code) ∈ config.apply (((Tree.mk s.source [root]).findings root
          s.document).map (·.diagnostic .standard s.source s.document)) :=
      List.mem_map.2 ⟨_, List.mem_filter.2 ⟨List.mem_map_of_mem hf, henabled⟩, rfl⟩
    exact h _ hreported (newline_mem_standard_iff.2 ⟨w, hw, hmem⟩)
  · intro h d hd hmem
    obtain ⟨d', hd', rfl⟩ := List.mem_map.1 hd
    obtain ⟨hfound, henabled⟩ := List.mem_filter.1 hd'
    obtain ⟨f, hf, rfl⟩ := List.mem_map.1 hfound
    obtain ⟨w, hw, hw'⟩ := newline_mem_standard_iff.1 hmem
    exact h f hf henabled w hw hw'

end Script

/-- The report of a script consists of two lines for each diagnostic, a header and the line of the
source on which the diagnostic starts, of which only the header is coloured, exactly when no text
that is quoted in it holds a line feed; so it does if no word of the script and not the name of the
expected function holds one. -/
theorem render_lines {s : Script} (config : LintConfig) (hlabel : '\n' ∉ s.label)
    (hd : s.document.check = .ok ()) :
    ∃ root r, parse s.source = .ok ⟨s.source, [root]⟩ ∧ s.check config = .ok r ∧
      r.path = s.label ∧
      (∀ d ∈ r.diagnostics, IsLineAt s.source d.span.start (d.sourceLine s.source)) ∧
      (∀ color, ∃ out, r.render s.source color = .ok out ∧
        (out.pieces '\n' = r.linesOf s.source color ++ [[]] ↔ s.QuotesLines config root)) ∧
      ((∀ tok ∈ tokens s.source, tok.kind = .word → '\n' ∉ tok.text) →
        '\n' ∉ s.document.autoloadName → s.QuotesLines config root) := by
  have hcheck := s.check_eq config hd
  have hwithin := Script.within_of_mem_report hd hcheck
  refine ⟨rootOf s.source, _, parse_eq s.source, hcheck, rfl,
    fun d hd => (Diagnostic.format_eq (hwithin d hd)).1, fun color => ?_, ?_⟩
  · obtain ⟨out, hout⟩ := Report.exists_render hwithin color
    exact ⟨out, hout, (Report.pieces_render_iff hwithin hlabel hout).trans
      Script.not_newline_mem_messages_iff⟩
  · intro hwords hname f hf _ w hw
    obtain rfl | ⟨tok, htok, hk, rfl⟩ := exists_word_of_mem_quoted hf w hw
    · exact hname
    · exact hwords tok htok hk

/-- A script whose block is not closed and whose variable is universal, in words of several
bytes. -/
def accentedScript : Script := ⟨"été.fish".toList, accented, .anonymous⟩

/-- Its report has four lines, two of them coloured. -/
theorem render_lines_accented :
    '\n' ∉ accentedScript.label ∧ accentedScript.document.check = .ok () ∧
    ∃ r out, accentedScript.check .default = .ok r ∧ r.render accented true = .ok out ∧
      out.pieces '\n' = r.linesOf accented true ++ [[]] ∧
      r.linesOf accented true =
        [Severity.error.paint
            "été.fish:1:9: error [1001]: missing 'end' for this 'begin' block".toList,
          "  | echo é; begin".toList,
          Severity.warning.paint ("été.fish:2:7: warning [4001]: ".toList ++
            "'-U' makes 'été' universal, shared with every fish session".toList),
          "  |   set -U été ñ".toList] := by
  have hlabel : '\n' ∉ accentedScript.label := by decide
  have hcheck : accentedScript.document.check = .ok () := rfl
  obtain ⟨root, r, hparse, hr, -, -, hrender, hwords⟩ := render_lines .default hlabel hcheck
  obtain rfl := eq_rootOf_of_parse hparse
  obtain ⟨out, hout, hlines⟩ := hrender true
  have hshown : (accentedScript.check .default).toOption.map (·.linesOf accented true) =
      some [Severity.error.paint
            "été.fish:1:9: error [1001]: missing 'end' for this 'begin' block".toList,
          "  | echo é; begin".toList,
          Severity.warning.paint ("été.fish:2:7: warning [4001]: ".toList ++
            "'-U' makes 'été' universal, shared with every fish session".toList),
          "  |   set -U été ñ".toList] := by
    decide +kernel
  rw [hr] at hshown
  exact ⟨hlabel, hcheck, r, out, hr, hout,
    hlines.2 (hwords (by decide +kernel) (by decide)), Option.some_inj.1 hshown⟩

/-- A script with a function whose quoted name holds a line feed. -/
def brokenName : Script := ⟨"x.fish".toList, "function \"a\nb\"\nend".toList, .anonymous⟩

/-- Its one diagnostic is shown on four lines, the first of which alone is coloured. -/
theorem exists_render_broken :
    '\n' ∉ brokenName.label ∧ brokenName.document.check = .ok () ∧
    ∃ r plain colored, brokenName.check .default = .ok r ∧ r.diagnostics.length = 1 ∧
      r.render brokenName.source false = .ok plain ∧
      plain.pieces '\n' =
        ["x.fish:1:10: info [3003]: helper function '\"a".toList,
          "b\"' should be named '_\"a".toList, "b\"'".toList, "  | function \"a".toList, []] ∧
      plain.pieces '\n' ≠ r.linesOf brokenName.source false ++ [[]] ∧
      r.render brokenName.source true = .ok colored ∧
      colored.pieces '\n' =
        [Severity.info.paint "x.fish:1:10: info [3003]: helper function '\"a".toList,
          "b\"' should be named '_\"a".toList, "b\"'".toList, "  | function \"a".toList, []] := by
  have hlabel : '\n' ∉ brokenName.label := by decide
  have hcheck : brokenName.document.check = .ok () := rfl
  obtain ⟨r, hr⟩ : ∃ r, brokenName.check .default = .ok r :=
    ⟨_, brokenName.check_eq .default hcheck⟩
  have hwithin := Script.within_of_mem_report hcheck hr
  obtain ⟨plain, hplain⟩ := Report.exists_render hwithin false
  obtain ⟨colored, hcolored⟩ := Report.exists_render hwithin true
  have hcount : (brokenName.check .default).toOption.map (·.diagnostics.length) = some 1 := by
    decide +kernel
  have hshown : (brokenName.check .default).toOption.map (fun r =>
      (r.render brokenName.source false).toOption.map (·.pieces '\n')) = some (some
        ["x.fish:1:10: info [3003]: helper function '\"a".toList,
          "b\"' should be named '_\"a".toList, "b\"'".toList, "  | function \"a".toList, []]) := by
    decide +kernel
  have hpainted : (brokenName.check .default).toOption.map (fun r =>
      (r.render brokenName.source true).toOption.map (·.pieces '\n')) = some (some
        [Severity.info.paint "x.fish:1:10: info [3003]: helper function '\"a".toList,
          "b\"' should be named '_\"a".toList, "b\"'".toList, "  | function \"a".toList, []]) := by
    decide +kernel
  rw [hr, Except.toOption, Option.map_some] at hcount hshown hpainted
  rw [hplain] at hshown
  rw [hcolored] at hpainted
  have hone := Option.some_inj.1 hcount
  have hlines := Option.some_inj.1 (Option.some_inj.1 hshown)
  refine ⟨hlabel, hcheck, r, plain, colored, hr, hone, hplain, hlines, fun heq => ?_, hcolored,
    Option.some_inj.1 (Option.some_inj.1 hpainted)⟩
  -- one diagnostic has two lines, and there are four
  have hlength := congrArg List.length (hlines.symm.trans heq)
  rw [List.length_append, Report.length_linesOf, hone] at hlength
  cases hlength

end FishScript
