/-
# Code behind a command

What the rule for commands that nothing separates finds in the tree of a source. A parsed command
is followed by what ends or joins it, with one exception: the `end` of its block, when what was to
be joined to the command is missing. Then the words behind this `end` are taken for a statement
(`trailingChain_of_runsIntoEnd`), and nothing else ever is (`trailingChain_eq_nil_or`). So code
that never runs is reported at statements only, unless a command runs into the `end` of its block
and words stand there (`diagnose_unreachable`).
-/
import Mathlib
import FishScript.Proofs.Grammar.Neighbours
import FishScript.Proofs.Rules.Structure

namespace FishScript

/-! ## Children in order -/

/-- The second node may stand right behind the first. -/
def Node.Precedes (source : Text) (n next : Node) : Prop := n.part.Precedes source next.part

section Children

variable {source : Text} {p close : Node} {before rest : List Node}

/-- In a list of statements of the tree of a source everything may stand where it does. -/
lemma isChain_children (hp : p ∈ (rootOf source).preorder)
    (hk : p.kind.holdsStatements = true) : p.children.IsChain (Node.Precedes source) :=
  (List.isChain_map Node.part).1 ((arranged_of_mem_preorder hp).neighbours hk)

/-- Nodes on both sides of the only one with a property. -/
lemma eq_of_append_cons_eq {α : Type*} {P : α → Prop} {xs ys xs' ys' : List α} {x x' : α}
    (h : xs ++ x :: ys = xs' ++ x' :: ys') (hx' : P x') (hxs : ∀ y ∈ xs, ¬ P y)
    (hys : ∀ y ∈ ys, ¬ P y) : xs = xs' ∧ x = x' ∧ ys = ys' :=
  (List.append_cons_inj_of_notMem (fun hmem => hxs x' hmem hx')
    (fun hmem => hys x' hmem hx')).1 h

/-- An `end` that is not the first child closes a block, and arguments follow it. -/
lemma Node.Sound.behind_end (h : p.Sound source) (hchildren : p.children = before ++ close :: rest)
    (hclose : close.isEnd source = true) (hbefore : before ≠ []) :
    (∃ b : Block, p.kind = b.kind) ∧ ∀ n ∈ rest, n.part.IsArgument := by
  have hmem : close ∈ p.children := by simp [hchildren]
  have hpart : close.part.isEnd source = true := by rw [← h.isEnd_child hmem, hclose]
  have hparts : p.parts = before.map Node.part ++ close.part :: rest.map Node.part := by
    rw [Node.parts, hchildren, List.map_append, List.map_cons]
  by_cases hb : ∃ b : Block, p.kind = b.kind
  · obtain ⟨b, hb⟩ := hb
    obtain ⟨front, close', args, heq, hfront, -, -, hargs⟩ := h.schema.closed hb
    rw [hparts] at heq
    obtain ⟨-, -, rfl⟩ := eq_of_append_cons_eq (P := fun q => Part.isEnd source q = true) heq.symm
      hpart (fun q hq => by simp [hfront.isEnd q hq])
      (fun q hq => by simp [Part.isEnd_eq_false_of_kind (hargs q hq).kind_ne])
    exact ⟨⟨b, hb⟩, fun n hn => hargs n.part (List.mem_map_of_mem hn)⟩
  · exfalso
    have hmem' : close.part ∈ p.parts := List.mem_map_of_mem hmem
    have hkind : p.kind = .error := by
      by_contra hne
      obtain hplaced | hnone := h.ends
      · have hfree := hplaced.free (fun b hk => hb ⟨b, hk⟩) hne close.part hmem'
        rw [hpart] at hfree
        cases hfree
      · rw [hnone] at hmem
        cases hmem
    obtain ⟨shape, hfits, -⟩ := h.schema.wellShaped.error hkind
    cases shape with
    | unclosed =>
      obtain ⟨b, hunclosed⟩ := hfits
      rw [hunclosed.isEnd _ hmem'] at hpart
      cases hpart
    | stray =>
      -- the only keyword is the first child
      obtain ⟨w, keyword, args, heq, -, -, hargs⟩ := hfits
      obtain ⟨c, cs, rfl⟩ := List.exists_cons_of_ne_nil hbefore
      rw [hparts, List.map_cons, List.cons_append] at heq
      obtain ⟨-, rfl⟩ := List.cons.inj heq
      refine (hargs close.part (by simp)).kind_ne ?_
      exact Part.isKeyword_kind hpart
    | connectors | garbage =>
      exact Balance.ne_keyword_of_shape (s := .top p) h hfits (by simp) close hmem
        (Part.isKeyword_kind hpart)

end Children

/-! ## What the rule takes for a statement -/

/-- A command or a pipeline stands before the `end` of its block, if conditional executions behind
it are left out, and `words` stand behind the `end`. -/
structure Site.RunsIntoEnd (source : Text) (s : Site) (words : List Node) : Prop where
  kind : s.node.kind = .command ∨ s.node.kind = .pipeline
  block : ∃ p, s.parent = some p ∧ ∃ b : Block, p.kind = b.kind
  after : ∃ joined close, s.after = joined ++ close :: words ∧
    (∀ n ∈ joined, n.kind = .conditionalExecution) ∧ close.isEnd source = true

namespace Reachability

variable {source : Text} {s : Site} {words : List Node}

lemma trailing_words (joined : Bool) (h : ∀ n ∈ words, n.part.IsArgument) :
    trailing joined words = words := by
  induction words generalizing joined with
  | nil => rfl
  | cons n words ih =>
    obtain ⟨⟨-, -, hk⟩, hwords⟩ := List.forall_mem_cons.1 h
    have hk : n.kind = .word ∨ n.kind = .option := hk
    rw [trailing, ih false hwords]
    obtain hk | hk := hk <;> simp [hk, endsStatement, Node.isNamed, NodeKind.isNamed]

/-- Conditional executions, an `end` and the words behind it: only the words are found. -/
lemma trailing_joined {joined : List Node} {close : Node}
    (hjoined : ∀ n ∈ joined, n.kind = .conditionalExecution)
    (hclose : close.isEnd source = true) (hwords : ∀ n ∈ words, n.part.IsArgument) :
    trailing true (joined ++ close :: words) = words := by
  induction joined with
  | nil =>
    have hk : close.kind = .keyword := by
      by_contra hk
      rw [Node.isEnd_eq_false_of_kind hk] at hclose
      cases hclose
    rw [List.nil_append, trailing, trailing_words true hwords]
    simp [hk, endsStatement, Node.isNamed, NodeKind.isNamed]
  | cons n joined ih =>
    obtain ⟨hn, hrest⟩ := List.forall_mem_cons.1 hjoined
    rw [List.cons_append, trailing, ih hrest]
    simp [hn, endsStatement, Node.isNamed, NodeKind.isNamed]

/-- Behind a statement nothing is found before what ends it, unless it is the `end` of the block. -/
lemma trailing_eq_nil_or : ∀ {after : List Node} {n : Node}, n.kind.isJoinable = true →
    (n :: after).IsChain (Node.Precedes source) →
    (∀ m ∈ after, m.part.isEnd source = m.isEnd source) →
    trailing true after = [] ∨ ∃ joined close words, after = joined ++ close :: words ∧
      (∀ m ∈ joined, m.kind = .conditionalExecution) ∧ close.isEnd source = true
  | [], n, hn, h, hend => .inl rfl
  | m :: after, n, hn, h, hend => by
    obtain ⟨hprecedes, hchain⟩ := List.isChain_cons_cons.1 h
    obtain ⟨hm, hafter⟩ := List.forall_mem_cons.1 hend
    have hbounds : m.part.Bounds source := hprecedes.1 hn
    have hends : endsStatement m.kind = true → trailing true (m :: after) = [] := fun hk => by
      rw [trailing, if_pos hk]
    rcases hbounds with hk | hk | hk | hk | hk | hk
    · have hk : m.kind = .terminator := hk
      exact .inl (hends (by rw [hk]; rfl))
    · -- a comment is skipped, and what follows it ends the statement
      left
      have hk : m.kind = .comment := hk
      have hskip : trailing true (m :: after) = trailing true after := by
        rw [trailing]
        simp [hk, endsStatement, Node.isNamed, NodeKind.isNamed]
      rw [hskip]
      cases after with
      | nil => rfl
      | cons l after =>
        have hl : l.kind = .terminator := (List.isChain_cons_cons.1 hchain).1.2 hk
        rw [trailing, if_pos (by rw [hl]; rfl)]
    · -- a conditional execution is skipped, and what follows it is judged the same way
      have hk : m.kind = .conditionalExecution := hk
      have hskip : trailing true (m :: after) = trailing true after := by
        rw [trailing]
        simp [hk, endsStatement, Node.isNamed, NodeKind.isNamed]
      rw [hskip]
      obtain hnil | ⟨joined, close, words, rfl, hjoined, hclose⟩ :=
        trailing_eq_nil_or (n := m) (by rw [hk]; rfl) hchain hafter
      · exact .inl hnil
      · exact .inr ⟨m :: joined, close, words, rfl, List.forall_mem_cons.2 ⟨hk, hjoined⟩, hclose⟩
    · have hk : m.kind = .error := hk
      exact .inl (hends (by rw [hk]; rfl))
    · have hk : m.kind.isClause = true := hk
      refine .inl (hends ?_)
      cases hkind : m.kind <;> simp [hkind, NodeKind.isClause, endsStatement] at hk ⊢
    · exact .inr ⟨[], m, after, rfl, List.forall_mem_nil _, hm ▸ hk⟩

lemma isArgument_of_runsIntoEnd (hs : s ∈ (rootOf source).sites none [] [])
    (h : s.RunsIntoEnd source words) : ∀ n ∈ words, n.part.IsArgument := by
  obtain ⟨p, hparent, b, hb⟩ := h.block
  obtain ⟨joined, close, hafter, -, hclose⟩ := h.after
  obtain ⟨hp, hchildren⟩ := Site.parent_mem hs hparent
  rw [hafter, ← List.cons_append, ← List.append_assoc] at hchildren
  exact ((sound_of_mem_preorder hp).behind_end hchildren hclose (by simp)).2

/-- Where a command runs into the `end` of its block, the words behind it are found. -/
theorem trailingChain_of_runsIntoEnd (hs : s ∈ (rootOf source).sites none [] [])
    (h : s.RunsIntoEnd source words) :
    trailingChain source s = words.map (.beside s · .unreachableCode) := by
  have hwords := isArgument_of_runsIntoEnd hs h
  obtain ⟨p, hparent, b, hb⟩ := h.block
  obtain ⟨joined, close, hafter, hjoined, hclose⟩ := h.after
  have hholds : p.kind.holdsStatements = true := by rw [hb]; cases b <;> rfl
  rw [trailingChain, if_pos, hafter, trailing_joined hjoined hclose hwords]
  obtain hk | hk := h.kind <;> simp [hk, hparent, hholds]

/-- Elsewhere nothing is found. -/
theorem trailingChain_eq_nil_or (hs : s ∈ (rootOf source).sites none [] []) :
    trailingChain source s = [] ∨ ∃ words, s.RunsIntoEnd source words := by
  by_cases hk : s.node.kind = .command ∨ s.node.kind = .pipeline
  · obtain hnone | ⟨p, hp, hparent, hchildren⟩ := Node.surroundings_of_mem_sites hs
    · left
      simp [trailingChain, hnone]
    · cases hholds : p.kind.holdsStatements with
      | false =>
        left
        simp [trailingChain, hparent, hholds]
      | true =>
        have hchain := isChain_children hp hholds
        rw [hchildren] at hchain
        have hsound := sound_of_mem_preorder hp
        have hend : ∀ m ∈ s.after, m.part.isEnd source = m.isEnd source := fun m hm =>
          (hsound.isEnd_child (by simp [hchildren, hm])).symm
        have hjoinable : s.node.kind.isJoinable = true := by
          obtain hk | hk := hk <;> rw [hk] <;> rfl
        obtain hnil | ⟨joined, close, words, hafter, hjoined, hclose⟩ :=
          trailing_eq_nil_or hjoinable (List.isChain_append.1 hchain).2.1 hend
        · left
          simp [trailingChain, hnil]
        · right
          rw [hafter, ← List.cons_append, ← List.append_assoc] at hchildren
          obtain ⟨hblock, -⟩ := hsound.behind_end hchildren hclose (by simp)
          exact ⟨words, hk, ⟨p, hparent, hblock⟩, joined, close, hafter, hjoined, hclose⟩
  · left
    rw [not_or] at hk
    simp [trailingChain, hk.1, hk.2]

lemma mem_trailingChain (hs : s ∈ (rootOf source).sites none [] []) {f : Finding}
    (hf : f ∈ trailingChain source s) :
    ∃ words, s.RunsIntoEnd source words ∧ ∃ n ∈ words, f = .beside s n .unreachableCode := by
  obtain hnil | ⟨words, hwords⟩ := trailingChain_eq_nil_or hs
  · rw [hnil] at hf
    cases hf
  · rw [trailingChain_of_runsIntoEnd hs hwords] at hf
    obtain ⟨n, hn, rfl⟩ := List.mem_map.1 hf
    exact ⟨words, hwords, n, hn, rfl⟩

end Reachability

/-! ## Code that never runs -/

/-- All findings of a pass, in the order in which they were made. -/
def Tree.findings (t : Tree) (root : Node) (document : Document) : List Finding :=
  t.namingFindings root document ++ t.walkFindings root

namespace Finding

/-- The finding is about code that never runs. -/
def isUnreachable (f : Finding) : Bool := f.code == .unreachableCode

lemma isUnreachable_iff {f : Finding} : f.isUnreachable = true ↔ f.code.family = .reachability := by
  cases hcode : f.code <;> simp [isUnreachable, hcode, Code.family]

/-- What is blamed is a statement in the body of the node that holds it. -/
def OfStatement (root : Node) (f : Finding) : Prop :=
  ∃ p ∈ root.preorder, f.parent = some p ∧ f.node ∈ p.bodyStatements

lemma OfStatement.field_eq_none {root : Node} {f : Finding} (h : f.OfStatement root) :
    f.node.field = none := by
  obtain ⟨p, -, -, hmem⟩ := h
  unfold Node.bodyStatements at hmem
  split at hmem
  · have hstatement := (List.mem_filter.1 hmem).2
    simp only [Node.isStatement, Bool.and_eq_true, Option.isNone_iff_eq_none] at hstatement
    exact hstatement.1.2
  · cases hmem

end Finding

section Unreachable

variable {source : Text} {s : Site} {f : Finding}

lemma Reachability.mem_afterReturn (hf : f ∈ Reachability.afterReturn source s) :
    (∃ p, s.parent = some p ∧ p.kind = .functionDefinition) ∧ s.node.isStatement = true ∧
      f = .here s .unreachableCode := by
  unfold Reachability.afterReturn at hf
  split at hf
  case isTrue h =>
    simp only [Bool.and_eq_true, Option.any_eq_true, beq_iff_eq] at h
    obtain ⟨⟨⟨p, hp, hk⟩, hstatement⟩, -⟩ := h
    exact ⟨⟨p, hp, hk⟩, hstatement, List.mem_singleton.1 hf⟩
  case isFalse => cases hf

/-- What the walk finds at a site was found by one of the rules, and by none before it. -/
lemma mem_firstFindings (hf : f ∈ firstFindings siteRules source s) :
    f ∈ Balance.rule source s ∨
    Balance.rule source s = [] ∧ (f ∈ Variables.rule source s ∨
    f ∈ Reachability.afterReturn source s ∨
    Reachability.afterReturn source s = [] ∧ f ∈ Reachability.trailingChain source s) := by
  rw [siteRules, firstFindings] at hf
  split at hf
  case h_2 => exact .inl hf
  case h_1 hbalance =>
    refine .inr ⟨hbalance, ?_⟩
    rw [firstFindings] at hf
    split at hf
    case h_2 => exact .inl hf
    case h_1 =>
      refine .inr ?_
      rw [firstFindings] at hf
      split at hf
      case h_2 => exact .inl hf
      case h_1 hreturn =>
        refine .inr ⟨hreturn, ?_⟩
        rw [firstFindings] at hf
        split at hf
        · cases hf
        · exact hf

/-- At a command that is not behind a return the rule for what follows it is heard. -/
lemma firstFindings_eq_trailingChain (hk : s.node.kind = .command ∨ s.node.kind = .pipeline)
    (hreturn : Reachability.afterReturn source s = []) :
    firstFindings siteRules source s = Reachability.trailingChain source s := by
  have hbalance : Balance.rule source s = [] :=
    Balance.rule_of_not_isError (by obtain hk | hk := hk <;> simp [Node.isError, hk])
  have hvariables : Variables.rule source s = [] :=
    Variables.rule_of_ne (by obtain hk | hk := hk <;> simp [hk])
  rw [siteRules, firstFindings, hbalance, firstFindings, hvariables, firstFindings, hreturn,
    firstFindings]
  cases h : Reachability.trailingChain source s with
  | nil => rfl
  | cons f fs => rfl

lemma mem_reachability (hf : f ∈ firstFindings siteRules source s) (hu : f.isUnreachable = true) :
    f ∈ Reachability.afterReturn source s ∨
    Reachability.afterReturn source s = [] ∧ f ∈ Reachability.trailingChain source s := by
  have hfamily := Finding.isUnreachable_iff.1 hu
  obtain hf | ⟨-, hf | hf⟩ := mem_firstFindings hf
  · rw [Balance.family_of_mem f hf] at hfamily
    cases hfamily
  · rw [Variables.family_of_mem f hf] at hfamily
    cases hfamily
  · exact hf

lemma Finding.ofStatement_of_mem_afterReturn (hs : s ∈ (rootOf source).sites none [] [])
    (hf : f ∈ Reachability.afterReturn source s) : f.OfStatement (rootOf source) := by
  obtain ⟨⟨p, hparent, hk⟩, hstatement, rfl⟩ := Reachability.mem_afterReturn hf
  obtain ⟨hp, hchildren⟩ := Site.parent_mem hs hparent
  refine ⟨p, hp, hparent, ?_⟩
  rw [Node.bodyStatements, if_pos (by rw [hk]; rfl)]
  exact List.mem_filter.2 ⟨by simp [Finding.here, hchildren], hstatement⟩

lemma Finding.not_ofStatement_of_word (hs : s ∈ (rootOf source).sites none [] [])
    {words : List Node} (hwords : s.RunsIntoEnd source words) {n : Node} (hn : n ∈ words) :
    ¬ (Finding.beside s n .unreachableCode).OfStatement (rootOf source) := by
  intro h
  obtain ⟨-, hfield, -⟩ := Reachability.isArgument_of_runsIntoEnd hs hwords n hn
  have hnone : n.field = none := h.field_eq_none
  rw [show n.field = some .argument from hfield] at hnone
  cases hnone

end Unreachable

/-- Code that never runs is reported at statements, unless a command runs into the `end` of its
block: then, if the command itself is not behind a return, the words behind the `end` are reported,
which are no statements. -/
theorem diagnose_unreachable (source : Text) {document : Document}
    (hd : document.check = .ok ()) :
    ∃ root, parse source = .ok ⟨source, [root]⟩ ∧
      (Tree.mk source [root]).diagnose document =
        .ok (((Tree.mk source [root]).findings root document).map
          (·.diagnostic .standard source document)) ∧
      (∀ f ∈ (Tree.mk source [root]).findings root document, f.isUnreachable = true →
        f.OfStatement root ∨ ∃ s ∈ root.sites none [] [], ∃ words, s.RunsIntoEnd source words ∧
          f.parent = s.parent ∧ f.node ∈ words) ∧
      ((∀ f ∈ (Tree.mk source [root]).findings root document, f.isUnreachable = true →
        f.OfStatement root) ↔
          ∀ s ∈ root.sites none [] [], ∀ words, s.RunsIntoEnd source words →
            words = [] ∨ Reachability.afterReturn source s ≠ []) := by
  -- of the findings only those of the walk are about code that never runs
  have hwalk : ∀ f ∈ (Tree.mk source [rootOf source]).findings (rootOf source) document,
      f.isUnreachable = true → ∃ s ∈ (rootOf source).sites none [] [],
        f ∈ Reachability.afterReturn source s ∨ Reachability.afterReturn source s = [] ∧
          f ∈ Reachability.trailingChain source s := by
    intro f hf hu
    rcases List.mem_append.1 hf with hf | hf
    · have hfamily := Finding.isUnreachable_iff.1 hu
      rw [Naming.family_of_mem _ _ f hf] at hfamily
      cases hfamily
    · obtain ⟨s, hs, hf⟩ := List.mem_flatMap.1 hf
      exact ⟨s, hs, mem_reachability hf hu⟩
  refine ⟨rootOf source, parse_eq source, Tree.diagnose_eq source _ hd, ?_, ?_, ?_⟩
  · intro f hf hu
    obtain ⟨s, hs, hf | ⟨-, hf⟩⟩ := hwalk f hf hu
    · exact .inl (Finding.ofStatement_of_mem_afterReturn hs hf)
    · right
      obtain hnil | ⟨words, hwords⟩ := Reachability.trailingChain_eq_nil_or hs
      · rw [hnil] at hf
        cases hf
      · rw [Reachability.trailingChain_of_runsIntoEnd hs hwords] at hf
        obtain ⟨n, hn, rfl⟩ := List.mem_map.1 hf
        exact ⟨s, hs, words, hwords, rfl, hn⟩
  · intro h s hs words hwords
    by_contra hne
    rw [not_or, not_not] at hne
    obtain ⟨hne, hreturn⟩ := hne
    obtain ⟨n, rest, rfl⟩ := List.exists_cons_of_ne_nil hne
    refine Finding.not_ofStatement_of_word hs hwords List.mem_cons_self (h _ ?_ rfl)
    refine List.mem_append_right _ (List.mem_flatMap.2 ⟨s, hs, ?_⟩)
    rw [firstFindings_eq_trailingChain hwords.kind hreturn,
      Reachability.trailingChain_of_runsIntoEnd hs hwords]
    exact List.mem_cons_self
  · intro h f hf hu
    obtain ⟨s, hs, hf | ⟨hreturn, hf⟩⟩ := hwalk f hf hu
    · exact Finding.ofStatement_of_mem_afterReturn hs hf
    · exfalso
      obtain hnil | ⟨words, hwords⟩ := Reachability.trailingChain_eq_nil_or hs
      · rw [hnil] at hf
        cases hf
      · obtain rfl | hreturn' := h s hs words hwords
        · rw [Reachability.trailingChain_of_runsIntoEnd hs hwords] at hf
          cases hf
        · exact hreturn' hreturn

/-- A pipeline whose last command is missing, in a block that is redirected. -/
def danglingBar : Text := "begin\necho a |\nend >log".toList

lemma exists_unreachable_danglingBar : ∃ f ∈ (Tree.mk danglingBar [rootOf danglingBar]).findings
    (rootOf danglingBar) .anonymous, f.isUnreachable = true ∧
      f.node.field = some .argument ∧ f.node.text danglingBar = ">log".toList := by
  have hfound : (((Tree.mk danglingBar [rootOf danglingBar]).findings
      (rootOf danglingBar) .anonymous).filter Finding.isUnreachable).map
        (fun f => (f.node.field, f.node.text danglingBar)) =
          [(some .argument, ">log".toList)] := by
    decide +kernel
  obtain ⟨f, fs, hfilter, hf, -⟩ := List.map_eq_cons_iff.1 hfound
  have hmem : f ∈ ((Tree.mk danglingBar [rootOf danglingBar]).findings
      (rootOf danglingBar) .anonymous).filter Finding.isUnreachable := by simp [hfilter]
  obtain ⟨hmem, hunreachable⟩ := List.mem_filter.1 hmem
  obtain ⟨hfield, htext⟩ := Prod.mk.inj hf
  exact ⟨f, hmem, hunreachable, hfield, htext⟩

/-- There the command that lacks its bar's right side runs into the `end`, and the word behind the
`end` is reported. -/
theorem diagnose_unreachable_danglingBar :
    Document.anonymous.check = .ok () ∧
    ∃ root, parse danglingBar = .ok ⟨danglingBar, [root]⟩ ∧
      ∃ f ∈ (Tree.mk danglingBar [root]).findings root .anonymous, f.isUnreachable = true ∧
        ∃ s ∈ root.sites none [] [], ∃ words, s.RunsIntoEnd danglingBar words ∧
          f.node ∈ words ∧ f.node.text danglingBar = ">log".toList := by
  have hcheck : Document.anonymous.check = .ok () := rfl
  obtain ⟨root, hparse, -, hwords, -⟩ := diagnose_unreachable danglingBar hcheck
  obtain rfl := eq_rootOf_of_parse hparse
  obtain ⟨f, hf, hunreachable, hfield, htext⟩ := exists_unreachable_danglingBar
  refine ⟨hcheck, rootOf danglingBar, hparse, f, hf, hunreachable, ?_⟩
  obtain hstatement | ⟨s, hs, words, hruns, -, hmem⟩ := hwords f hf hunreachable
  · rw [hstatement.field_eq_none] at hfield
    cases hfield
  · exact ⟨s, hs, words, hruns, hmem, htext⟩

/-- Not all code that is reported as never run is a statement: here it is a redirection behind the
`end` of a block. -/
theorem exists_unreachable_not_statement :
    ∃ root ds, parse danglingBar = .ok ⟨danglingBar, [root]⟩ ∧
      (Tree.mk danglingBar [root]).diagnose .anonymous = .ok ds ∧
      ∃ f ∈ (Tree.mk danglingBar [root]).findings root .anonymous,
        f.diagnostic .standard danglingBar .anonymous ∈ ds ∧ f.isUnreachable = true ∧
        ¬ f.OfStatement root ∧ f.node.field = some .argument ∧
        f.node.text danglingBar = ">log".toList := by
  obtain ⟨f, hf, hunreachable, hfield, htext⟩ := exists_unreachable_danglingBar
  refine ⟨rootOf danglingBar, _, parse_eq danglingBar, Tree.diagnose_eq danglingBar _ rfl, f, hf,
    List.mem_map_of_mem hf, hunreachable, fun h => ?_, hfield, htext⟩
  rw [h.field_eq_none] at hfield
  cases hfield

end FishScript
