/-
# Which tokens findings begin with

A node begins where a token begins: one with which a construct may begin, or, if the node stands for
source that fits nowhere, one that is unexpected. Only the program, what stands between statements
and the words in source that fits nowhere may begin otherwise (`anchored_of_child`), and nothing is
found at any of these (`anchored_of_mem_findings`). So a text about which something is found begins
with white space only if source that fits nowhere does (`Node.Anchored.visible`).
-/
import Mathlib
import FishScript.Proofs.Grammar.Labels
import FishScript.Proofs.Grammar.Starts
import FishScript.Proofs.Rules.Anchors
import FishScript.Proofs.Rules.Printing
import FishScript.Proofs.Text.Lines
import FishScript.Proofs.Tree.Walk

namespace FishScript

/-! ## How tokens begin -/

/-- A construct may begin with a token of the kind. -/
def TokenKind.opens : TokenKind → Bool
  | .word | .andAnd | .orOr | .pipe => true
  | _ => false

section Tokens

variable {source t : Text} {tok : Token} {pending offset : Nat} {c : Char}

lemma exists_stands (htok : tok ∈ tokens source) : ∃ front rest,
    source = front ++ tok.text ++ rest ∧ tok.start = Text.byteLength front ∧ tok.text ≠ [] ∧
      tok.Stands (tok.text ++ rest) := by
  obtain ⟨before, after, heq⟩ := List.append_of_mem htok
  have hlaid : Laid 0 source (tokens source) := laid_tokensFrom source 0
  rw [heq] at hlaid
  obtain ⟨front, rest, hsource, hstart, hne, hstands, -⟩ := hlaid.split
  exact ⟨front, rest, hsource, by rw [hstart, Nat.zero_add], hne, hstands⟩

lemma visible_of_opens (htok : tok ∈ tokens source) (hk : tok.kind.opens = true) :
    tok.text.Visible := by
  obtain ⟨front, rest, -, -, -, hstands⟩ := exists_stands htok
  have hne : tok.kind ≠ .unexpected := fun h => by rw [h] at hk; cases hk
  obtain ⟨c, w, htext, hbegins⟩ := exists_begins ((hstands.matched hne tok.kind).2 rfl)
  rw [htext]
  generalize tok.kind = kind at hk hbegins
  cases hbegins with
  | andAnd | orOr | pipe => exact ⟨_, rfl, by decide⟩
  | word _ hblank => exact ⟨_, rfl, hblank⟩
  | _ => cases hk

lemma exists_munch : ∀ {t : Text} {pending offset : Nat}, tok ∈ tokensFrom pending offset t →
    ∃ c rest, tok.text = (c :: rest).take (munch (c :: rest)).size ∧
      (munch (c :: rest)).kind? = some tok.kind
  | [], _, _, h => by cases h
  | c :: t, n + 1, offset, h => exists_munch (t := t) h
  | c :: t, 0, offset, h => by
    rw [tokensFrom] at h
    split at h
    case h_1 kind hkind =>
      rcases List.mem_cons.1 h with rfl | h
      · exact ⟨c, t, rfl, hkind⟩
      · exact exists_munch h
    case h_2 => exact exists_munch h

/-- White space that is unexpected is taken alone. -/
lemma munch_size_of_isBlank (hc : Text.isBlank c = true)
    (hk : (munch (c :: t)).kind? = some .unexpected) : (munch (c :: t)).size = 1 := by
  have hne : ∀ d : Char, Text.isBlank d = false → c ≠ d := by
    rintro d hd rfl
    rw [hc] at hd
    cases hd
  have hnext : WordState.start.next? c = none := by
    have hspecial : WordState.isSpecial c = true := by simp [WordState.isSpecial, hc]
    rw [WordState.next?, if_neg (hne _ (by decide)), WordState.piece?, if_neg (hne _ (by decide)),
      if_neg (hne _ (by decide)), if_neg (hne _ (by decide)), if_pos hspecial]
  unfold munch at hk ⊢
  split at hk
  case h_11 =>
    rename_i heq
    obtain ⟨rfl, rfl⟩ := List.cons.inj heq
    split at hk
    case isTrue => cases hk
    case isFalse hspace =>
      simp [hspace, munchWord, wordExtent, wordExtentFrom, hnext]
  all_goals cases hk

lemma visible_of_unexpected (htok : tok ∈ tokens source) (hk : tok.kind = .unexpected)
    (hblank : ¬ Text.Blank tok.text) : tok.text.Visible := by
  obtain ⟨c, rest, htext, hkind⟩ := exists_munch htok
  rw [hk] at hkind
  cases hc : Text.isBlank c with
  | true =>
    rw [munch_size_of_isBlank hc hkind] at htext
    exact absurd (by simpa [htext, Text.Blank] using hc) hblank
  | false =>
    obtain ⟨n, hsize⟩ := Nat.exists_eq_add_one_of_ne_zero
      (munch_size_pos (List.cons_ne_nil c rest)).ne'
    exact ⟨c, by rw [htext, hsize]; rfl, hc⟩

end Tokens

/-! ## Where nodes begin -/

section Nodes

variable {source : Text} {n p : Node} {t : Terminal} {tok : Token} {span : Span}

lemma head?_text_eq (hn : n.span.Within source) (htok : tok ∈ tokens source)
    (hstart : tok.start = n.span.start) : (n.text source).head? = tok.text.head? := by
  obtain ⟨above, piece, below, hsource, hpiece, hspan⟩ := hn.pieces
  obtain ⟨before, behind, hsource', hstart', hne, -⟩ := exists_stands htok
  have htext : n.text source = piece := by
    rw [Node.text, hspan, Text.byteLength_append, Span.text?, hsource, Text.slice?_append]
    rfl
  have hrest : piece ++ below = tok.text ++ behind := by
    have hskip := Text.skipBytes?_byteLength above (piece ++ below)
    have hskip' := Text.skipBytes?_byteLength before (tok.text ++ behind)
    rw [← List.append_assoc, ← hsource] at hskip
    rw [← List.append_assoc, ← hsource', ← hstart', hstart, hspan, hskip,
      Option.some_inj] at hskip'
    exact hskip'
  rw [htext, ← List.head?_append_of_ne_nil piece hpiece, hrest, List.head?_append_of_ne_nil _ hne]

lemma Cuts.exists_word {scan : NestingScan} {depth : Nat} {ss : List Stretch}
    {first : Terminal} {rest : List Terminal} (h : Cuts scan depth ss)
    (hmem : .folded first rest ∈ ss) : ∃ w, first.symbol = .word w := by
  induction h with
  | nil => cases hmem
  | keep _ _ ih => exact ih ((List.mem_cons.1 hmem).resolve_left nofun)
  | @fold scan first' rest' later hrun _ ih =>
    rcases List.mem_cons.1 hmem with heq | hmem
    · obtain ⟨rfl, rfl⟩ := Stretch.folded.inj heq
      have hopens := hrun.opens
      cases hsymbol : first.symbol with
      | word w => exact ⟨w, rfl⟩
      | _ => rw [hsymbol] at hopens; cases hopens
    · exact ih hmem

lemma Token.kind_of_garbage (h : tok.symbol = .garbage) : tok.kind = .unexpected := by
  unfold symbol at h
  split at h <;> first | assumption | cases h

/-- What the grammar sees is a token, or garbage that begins with one. -/
lemma exists_token_of_mem_limited (ht : t ∈ limited source) :
    ∃ tok ∈ tokens source, tok.start = t.span.start ∧
      (tok.terminal = t ∨ t.symbol = .garbage ∧ tok.kind = .word) := by
  obtain ⟨ss, hcuts, hterminals, hresult⟩ := cuts_limitFrom (terminals source) .initial 0
  rw [limited, limitNesting, ← hresult] at ht
  obtain ⟨s, hs, rfl⟩ := List.mem_map.1 ht
  have hsub : ∀ u ∈ s.terminals, ∃ tok ∈ tokens source, tok.terminal = u := fun u hu =>
    List.mem_map.1 (by
      rw [← terminals, ← hterminals]
      exact List.mem_flatMap.2 ⟨s, hs, hu⟩)
  cases s with
  | kept t =>
    obtain ⟨tok, htok, rfl⟩ := hsub t List.mem_cons_self
    exact ⟨tok, htok, rfl, .inl rfl⟩
  | folded first rest =>
    obtain ⟨w, hw⟩ := hcuts.exists_word hs
    obtain ⟨tok, htok, rfl⟩ := hsub first List.mem_cons_self
    exact ⟨tok, htok, rfl, .inr ⟨rfl, Token.kind_of_symbol hw⟩⟩

lemma mem_below_of_mem_children {root : Node} (hp : p ∈ root.preorder) (hn : n ∈ p.children) :
    n ∈ preorderAll root.children := by
  rw [Node.preorder_eq] at hp
  rcases List.mem_cons.1 hp with rfl | hp
  · exact mem_preorderAll.2 ⟨n, hn, n.mem_preorder_self⟩
  · obtain ⟨c, hc, hpc⟩ := mem_preorderAll.1 hp
    exact mem_preorderAll.2
      ⟨c, hc, mem_preorder_trans hpc (Node.mem_preorder_of_child hn n.mem_preorder_self)⟩

lemma exists_terminal_of_leaf (hp : p ∈ (rootOf source).preorder) (hn : n ∈ p.children)
    (hnone : n.children = []) : ∃ t ∈ limited source, n.span = t.span ∧
      n.kind ∈ t.symbol.leafKinds := by
  obtain ⟨children, heq, hfull, hleaves⟩ := parseTerminals_leaves (limited source)
  have hmem := mem_below_of_mem_children hp hn
  rw [rootOf, heq] at hmem
  refine exists_of_forall₂ hleaves n.leaf ?_
  rw [← leavesOf_plantAll children 1 0 hfull]
  exact List.mem_map_of_mem (List.mem_filter.2 ⟨hmem, by simp [Node.isChildless, hnone]⟩)

lemma kind_ne_program (hp : p ∈ (rootOf source).preorder) (hn : n ∈ p.children) :
    n.kind ≠ .program := by
  intro hk
  by_cases hnone : n.children = []
  · obtain ⟨t, -, -, hleaf⟩ := exists_terminal_of_leaf hp hn hnone
    rw [hk] at hleaf
    exact Symbol.program_notMem_leafKinds _ hleaf
  · have hregular := regular_of_mem_preorder hp (List.ne_nil_of_mem hn)
    refine hregular.inner n.part (List.mem_map_of_mem hn) ?_ hk
    simp [Node.part, hnone]

/-- Where a leaf stands that is neither a word nor between statements, a token stands with which a
construct may begin. -/
lemma exists_token_of_leaf (hp : p ∈ (rootOf source).preorder) (hn : n ∈ p.children)
    (hnone : n.children = []) (hk : n.kind ∉ [.word, .terminator, .comment]) :
    ∃ tok ∈ tokens source, tok.start = n.span.start ∧ tok.kind.opens = true := by
  obtain ⟨t, ht, hspan, hleaf⟩ := exists_terminal_of_leaf hp hn hnone
  obtain ⟨tok, htok, hstart, rfl | ⟨hgarbage, -⟩⟩ := exists_token_of_mem_limited ht
  · refine ⟨tok, htok, by rw [hspan]; exact hstart, ?_⟩
    obtain ⟨kind, text, start⟩ := tok
    cases kind <;> first
      | rfl
      | exact absurd (List.mem_singleton.1 hleaf) fun h => hk (by simp [h])
  · rw [hgarbage] at hleaf
    exact absurd (List.mem_singleton.1 hleaf) fun h => hk (by simp [h])

/-- Garbage begins with a token that is unexpected, or with the first word of a block that nests too
deep. -/
lemma exists_token_of_garbage (h : span ∈ garbagePlaces source) : ∃ tok ∈ tokens source,
    tok.start = span.start ∧ (tok.kind.opens = true ∨ tok.kind = .unexpected) := by
  obtain ⟨t, ht, rfl⟩ := List.mem_map.1 h
  obtain ⟨ht, hgarbage⟩ := List.mem_filter.1 ht
  obtain ⟨tok, htok, hstart, rfl | ⟨-, hword⟩⟩ := exists_token_of_mem_limited ht
  · exact ⟨tok, htok, hstart, .inr (Token.kind_of_garbage (beq_iff_eq.1 hgarbage))⟩
  · exact ⟨tok, htok, hstart, .inl (by rw [hword]; rfl)⟩

lemma exists_first_child (hn : n ∈ (rootOf source).preorder) (hne : n.children ≠ []) :
    ∃ c cs, n.children = c :: cs ∧ c.span.start = n.span.start := by
  obtain ⟨c, cs, hchildren⟩ := List.exists_cons_of_ne_nil hne
  obtain ⟨last, hlast⟩ := Option.isSome_iff_exists.1 (List.getLast?_isSome.2 hne)
  have hspan := (spanning_of_mem_preorder hn).reaches c (by rw [hchildren]; rfl) last hlast
  exact ⟨c, cs, hchildren, by rw [hspan]⟩

lemma exists_token_of_role (hp : p ∈ (rootOf source).preorder) (hn : n ∈ p.children)
    (hnone : n.children = []) (hfield : n.field.isSome) :
    ∃ tok ∈ tokens source, tok.start = n.span.start ∧ tok.kind.opens = true := by
  obtain ⟨tok, htok, hk, hspan, -⟩ := exists_word_of_role hp hn hnone hfield
  exact ⟨tok, htok, by rw [hspan]; rfl, by rw [hk]; rfl⟩

lemma exists_token_of_begins (hp : p ∈ (rootOf source).preorder) (hn : n ∈ p.children)
    (h : n.part.Begins) : ∃ tok ∈ tokens source, tok.start = n.span.start ∧
      tok.kind.opens = true := by
  have hmem := mem_preorder_of_mem_children hp hn
  obtain ⟨hleaf, hk⟩ | ⟨hleaf, hk | hk | hfield⟩ := h
  · -- a command begins with its name
    have hne : n.children ≠ [] := by
      rintro hnil
      simp [Node.part, hnil] at hleaf
    obtain ⟨c, cs, hchildren, hstart⟩ := exists_first_child hmem hne
    have hc : c ∈ n.children := by simp [hchildren]
    obtain ⟨hcleaf, hcfield⟩ :=
      (labelled_of_mem_preorder hmem).arguments hk c.part (List.mem_map_of_mem hc)
    rw [← hstart]
    exact exists_token_of_role hmem hc (Node.children_eq_nil hcleaf) hcfield
  · have hk : n.kind = .keyword := hk
    exact exists_token_of_leaf hp hn (Node.children_eq_nil hleaf) (by simp [hk])
  · have hk : n.kind = .operator := hk
    exact exists_token_of_leaf hp hn (Node.children_eq_nil hleaf) (by simp [hk])
  · exact exists_token_of_role hp hn (Node.children_eq_nil hleaf) hfield

/-- The first part of a node for source that fits nowhere is one with which a construct may begin,
or garbage. -/
lemma ErrorShape.Fits.exists_first {gs : List Span} {shape : ErrorShape} {ps : List Part}
    (h : shape.Fits source gs ps) : ∃ p rest, ps = p :: rest ∧
      (p.Begins ∨ ∃ s ∈ gs, p.leaf? = some s) := by
  have hkeyword : ∀ {p : Part} {w : Text}, p.isKeyword source w = true → p.Begins := by
    intro p w hp
    refine .inr ⟨?_, .inl (Part.isKeyword_kind hp)⟩
    simp only [Part.isKeyword, Bool.and_eq_true, beq_iff_eq] at hp
    cases hleaf : p.leaf? with
    | none => simp [hleaf] at hp
    | some => rfl
  cases shape with
  | unclosed =>
    obtain ⟨b, clauses, -, -, opener, body, rfl, hopener, -⟩ := h
    exact ⟨_, _, rfl, .inl (hkeyword hopener)⟩
  | stray =>
    obtain ⟨c, keyword, args, rfl, hclosing, -⟩ := h
    exact ⟨_, _, rfl, .inl (hkeyword hclosing)⟩
  | connectors =>
    obtain ⟨operators, operand, rfl, hne, hoperators, -⟩ := h
    obtain ⟨p, rest, rfl⟩ := List.exists_cons_of_ne_nil hne
    obtain ⟨hleaf, -, hk⟩ := hoperators p List.mem_cons_self
    exact ⟨_, _, rfl, .inl (.inr ⟨hleaf, .inr (.inl hk)⟩)⟩
  | garbage =>
    obtain ⟨first, words, rfl, hgarbage, -⟩ := h
    exact ⟨_, _, rfl, .inr hgarbage⟩

/-- A construct may begin with the token where the node begins, or the node stands for source that
fits nowhere and the token is unexpected. -/
def Node.Anchored (source : Text) (n : Node) : Prop :=
  ∃ tok ∈ tokens source, tok.start = n.span.start ∧
    (tok.kind.opens = true ∨ n.kind = .error ∧ tok.kind = .unexpected)

/-- Every node with children but the program is anchored. -/
theorem anchored_of_mem_preorder (hn : n ∈ (rootOf source).preorder) (hne : n.children ≠ [])
    (hk : n.kind ≠ .program) : n.Anchored source := by
  obtain ⟨c, cs, hchildren, hstart⟩ := exists_first_child hn hne
  have hparts : n.parts = c.part :: cs.map Node.part := by rw [Node.parts, hchildren, List.map_cons]
  have hbegins : c.part.Begins → n.Anchored source := by
    intro h
    obtain ⟨tok, htok, hstart', hopens⟩ := exists_token_of_begins hn (by simp [hchildren]) h
    exact ⟨tok, htok, hstart'.trans hstart, .inl hopens⟩
  obtain hprogram | herror | ⟨p, hp, h⟩ := (regular_of_mem_preorder hn hne).first
  · exact absurd hprogram hk
  · obtain ⟨shape, hfits, -⟩ := (sound_of_mem_preorder hn).schema.wellShaped.error herror
    obtain ⟨p, rest, heq, h⟩ := hfits.exists_first
    obtain rfl : c.part = p := (List.cons.inj (hparts.symm.trans heq)).1
    obtain h | ⟨s, hs, hleaf⟩ := h
    · exact hbegins h
    · have hspan : c.span = s := by
        simpa [Node.part, Node.children_eq_nil (n := c) (by simp [hleaf])] using hleaf
      obtain ⟨tok, htok, hstart', hkind⟩ := exists_token_of_garbage hs
      exact ⟨tok, htok, by rw [hstart', ← hstart, hspan], hkind.imp_right fun h => ⟨herror, h⟩⟩
  · rw [hparts, List.head?_cons, Option.mem_some_iff] at hp
    exact hbegins (hp ▸ h)

lemma Node.not_isWord_part (h : n.kind ≠ .word) : ¬ n.part.IsWord := fun hword => h hword.2.2

/-- What a node holds is anchored, unless it stands between statements or is a word in source that
fits nowhere. -/
theorem anchored_of_child (hp : p ∈ (rootOf source).preorder) (hn : n ∈ p.children)
    (hk : n.kind ∉ [.terminator, .comment]) (hword : p.kind = .error → ¬ n.part.IsWord) :
    n.Anchored source := by
  have hopens : (∃ tok ∈ tokens source, tok.start = n.span.start ∧ tok.kind.opens = true) →
      n.Anchored source := fun ⟨tok, htok, hstart, h⟩ => ⟨tok, htok, hstart, .inl h⟩
  by_cases hnone : n.children = []
  · by_cases hkind : n.kind = .word
    · refine hopens (exists_token_of_role hp hn hnone ?_)
      have hnot : ¬ n.part.IsWord :=
        (regular_of_mem_preorder hp (List.ne_nil_of_mem hn)).words.elim hword
          fun h => h n.part (List.mem_map_of_mem hn)
      by_contra hfield
      exact hnot ⟨by simp [Node.part, hnone], Option.not_isSome_iff_eq_none.1 hfield, hkind⟩
    · exact hopens (exists_token_of_leaf hp hn hnone (by simpa [hkind] using hk))
  · exact anchored_of_mem_preorder (mem_preorder_of_mem_children hp hn) hnone
      (kind_ne_program hp hn)

lemma visible_of_token (hn : n ∈ (rootOf source).preorder) (hk : n.kind ≠ .program)
    (htok : tok ∈ tokens source) (hstart : tok.start = n.span.start) (h : tok.text.Visible) :
    (n.text source).Visible := by
  obtain hwithin | ⟨rfl, -⟩ := within_of_mem_preorder hn
  · rwa [Text.Visible, head?_text_eq hwithin htok hstart]
  · exact absurd (kind_rootOf source) hk

/-- The text of an anchored node begins visibly, unless the node stands for source that fits nowhere
and white space is among the unexpected tokens. -/
theorem Node.Anchored.visible (h : n.Anchored source) (hn : n ∈ (rootOf source).preorder)
    (hk : n.kind ≠ .program) (herror : n.kind = .error →
      ∀ tok ∈ tokens source, tok.kind = .unexpected → ¬ Text.Blank tok.text) :
    (n.text source).Visible := by
  obtain ⟨tok, htok, hstart, hopens | ⟨he, hkind⟩⟩ := h
  · exact visible_of_token hn hk htok hstart (visible_of_opens htok hopens)
  · exact visible_of_token hn hk htok hstart
      (visible_of_unexpected htok hkind (herror he tok htok hkind))

end Nodes

/-! ## Where something is found -/

section Findings

variable {source : Text} {s : Site} {n : Node} {f : Finding} {document : Document}

lemma Blames.anchored (hs : s ∈ (rootOf source).sites none [] []) (h : Blames source s n) :
    n.Anchored source ∧ n.kind ≠ .program := by
  have hchild : ∀ {p : Node}, p ∈ (rootOf source).preorder → n ∈ p.children →
      n.kind ∉ [.terminator, .comment] → (p.kind = .error → ¬ n.part.IsWord) →
        n.Anchored source ∧ n.kind ≠ .program := fun hp hn hk hword =>
    ⟨anchored_of_child hp hn hk hword, kind_ne_program hp hn⟩
  cases h with
  | here h =>
    obtain he | hk | ⟨hstatement, p, hparent, hk⟩ := h
    · have hne : s.node.children ≠ [] := children_ne_nil_of_error (Site.node_mem hs) he
      exact ⟨anchored_of_mem_preorder (Site.node_mem hs) hne (by simp [he]), by simp [he]⟩
    · obtain ⟨p, hp, -, hcommand, hchildren⟩ := exists_command hs hk
      exact hchild hp (by simp [hchildren]) (by simp [hk]) (by simp [hcommand])
    · obtain ⟨hp, hchildren⟩ := Site.parent_mem hs hparent
      refine hchild hp (by simp [hchildren]) (fun hmem => ?_) (by simp [hk])
      simp only [Node.isStatement, Node.isNamed, Bool.and_eq_true] at hstatement
      obtain hk | hk : s.node.kind = .terminator ∨ s.node.kind = .comment := by simpa using hmem
      all_goals simp [hk, NodeKind.isNamed] at hstatement
  | below _ hn hk =>
    exact hchild (Site.node_mem hs) hn (by simp [hk]) fun _ => Node.not_isWord_part (by simp [hk])
  | beside _ hn hk =>
    obtain ⟨p, hp, -, hnp, -⟩ := Blames.exists_parent hs hn
    exact hchild hp hnp (by simp [hk]) fun _ => Node.not_isWord_part (by simp [hk])
  | behind h hn =>
    obtain ⟨-, hfield, hk⟩ := Reachability.isArgument_of_runsIntoEnd hs h n hn
    obtain ⟨p, hp, -, -, hnp⟩ := h.exists_parent hs hn
    refine hchild hp hnp ?_ fun _ hword => ?_
    · obtain hk | hk := hk <;> simp [show n.kind = _ from hk]
    · have hnone := hword.2.1
      rw [hfield] at hnone
      cases hnone

/-- Whatever is found in a source is anchored. -/
theorem anchored_of_mem_findings
    (hf : f ∈ (Tree.mk source [rootOf source]).findings (rootOf source) document) :
    f.node.Anchored source ∧ f.node.kind ≠ .program := by
  rcases List.mem_append.1 hf with hf | hf
  · rw [Tree.namingFindings, ← Naming.found_check] at hf
    obtain ⟨g, hg, seen, hf⟩ := Check.mem_found hf
    obtain ⟨code, -, rfl⟩ := List.mem_map.1 hf
    obtain ⟨hp, hfunction, hname⟩ := Naming.mem_namedFunctions.1 hg
    obtain ⟨hmem, hfield⟩ := Naming.mem_of_childByField? hname
    have hk : g.name.kind = .word :=
      (arranged_of_mem_preorder hp).names g.name.part (List.mem_map_of_mem hmem) hfield
    exact ⟨anchored_of_child hp hmem (by simp [hk]) (by simp [hfunction]), by simp [hk]⟩
  · obtain ⟨s, hs, hblames⟩ := exists_blames hf
    exact hblames.anchored hs

/-- Something is found at every node for source that fits nowhere, or at the word with which the
node begins. -/
lemma exists_finding_of_error (document : Document) (hn : n ∈ (rootOf source).preorder)
    (he : n.isError = true) :
    ∃ f ∈ (Tree.mk source [rootOf source]).findings (rootOf source) document,
      Explains source n f.code f.node.span := by
  rw [← Node.map_node_sites (rootOf source) none [] []] at hn
  obtain ⟨s, hs, rfl⟩ := List.mem_map.1 hn
  obtain ⟨f, hrule, hexplains, -⟩ :=
    Balance.rule_of_isError (sound_of_mem_preorder (Site.node_mem hs)) he
  refine ⟨f, List.mem_append_right _ (List.mem_flatMap.2 ⟨s, hs, ?_⟩), hexplains⟩
  simp [siteRules, firstFindings, hrule]

end Findings

/-! ## What the first lines show -/

/-- Source that fits nowhere has something besides white space on its first line. -/
def ErrorsShow (source : Text) (root : Node) : Prop :=
  ∀ n ∈ root.preorder, n.isError = true → ¬ Text.Blank (n.text source).firstLine

instance (source : Text) (root : Node) : Decidable (ErrorsShow source root) :=
  List.decidableBAll
    (fun n : Node => n.isError = true → ¬ Text.Blank (n.text source).firstLine) root.preorder

/-- White space is alone on the first line of no text about which something is found, exactly if
this is so for source that fits nowhere. -/
theorem forall_findings_show_iff (source : Text) (document : Document) :
    (∀ f ∈ (Tree.mk source [rootOf source]).findings (rootOf source) document,
      ¬ Text.Blank (f.node.text source).firstLine) ↔ ErrorsShow source (rootOf source) := by
  constructor
  · intro h n hn he
    obtain ⟨f, hf, hexplains⟩ := exists_finding_of_error document hn he
    have hshown := h f hf
    rw [Node.text] at hshown
    generalize f.code = code, f.node.span = span at hshown hexplains
    cases hexplains with
    | missingEnd | syntaxError => exact hshown
    | @extraEnd close rest hchildren hend =>
      -- the node begins with the `end`, and an `end` is visible
      have hk : close.kind = .keyword := by
        simp only [Node.isEnd, Node.isKeyword, Bool.and_eq_true, beq_iff_eq] at hend
        exact hend.1
      have hclose : close ∈ n.children := by simp [hchildren]
      obtain ⟨tok, htok, hstart, hopens | ⟨hk', -⟩⟩ :=
        anchored_of_child hn hclose (by simp [hk]) fun _ => Node.not_isWord_part (by simp [hk])
      · obtain ⟨c, cs, hchildren', hstart'⟩ := exists_first_child hn (List.ne_nil_of_mem hclose)
        obtain rfl : c = close := (List.cons.inj (hchildren'.symm.trans hchildren)).1
        have hkind : n.kind ≠ .program := fun h => by simp [Node.isError, h] at he
        exact (visible_of_token hn hkind htok (hstart.trans hstart')
          (visible_of_opens htok hopens)).firstLine
      · rw [hk] at hk'
        cases hk'
  · intro h f hf
    have hn := Tree.mem_preorder_of_mem_findings hf
    obtain ⟨hanchored, hk⟩ := anchored_of_mem_findings hf
    cases he : f.node.isError with
    | true => exact h f.node hn he
    | false =>
      refine (hanchored.visible hn hk fun hkind => ?_).firstLine
      rw [Node.isError, hkind] at he
      cases he

/-- Source that fits nowhere shows something if no unexpected token is white space. -/
theorem errorsShow_of_tokens {source : Text}
    (h : ∀ tok ∈ tokens source, tok.kind = .unexpected → ¬ Text.Blank tok.text) :
    ErrorsShow source (rootOf source) := by
  intro n hn he
  have hkind : n.kind = .error := by simpa [Node.isError] using he
  have hk : n.kind ≠ .program := by simp [hkind]
  have hanchored := anchored_of_mem_preorder hn (children_ne_nil_of_error hn hkind) hk
  exact (hanchored.visible hn hk fun _ => h).firstLine

end FishScript
