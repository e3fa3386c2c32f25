/-
# Labelled leaves

A leaf has a role only if it is a word: garbage, the signs between statements and the words that
open or close a block have none. So in the tree of a source a leaf with a role is a word of the
source (`exists_word_of_role`). A command holds its name and its arguments and nothing else, so all
its children are such leaves (`labelled_of_mem_preorder`).
-/
import Mathlib
import FishScript.Proofs.Grammar.Keeping
import FishScript.Proofs.Grammar.Spacing

namespace FishScript

/-- Leaves with a role stand where `words` are, and in a command there are no other parts. -/
structure Labelled (words : Span → Prop) (kind : NodeKind) (ps : List Part) : Prop where
  words : ∀ p ∈ ps, p.field.isSome → ∀ span ∈ p.leaf?, words span
  arguments : kind = .command → ∀ p ∈ ps, p.leaf?.isSome ∧ p.field.isSome

namespace Frame

variable {words : Span → Prop} {source : Text} {gs : List Span} {f inner : Frame} {t : Terminal}
  {m : Move}

/-- The parts of an open node, and of the nodes in it, are labelled as they should. -/
structure Labelled (words : Span → Prop) (f : Frame) : Prop where
  parts : FishScript.Labelled words f.kind f.parts
  inside : ∀ p ∈ f.phrases, p.Each (FishScript.Labelled words)

lemma Labelled.phrase (h : f.Labelled words) : f.phrase.Each (FishScript.Labelled words) :=
  .node h.parts fun p hp => h.inside p (List.mem_reverse.1 hp)

/-- Only a word gets a role, and what a command takes gets one. -/
lemma Rule.label (hm : f.Rule t m) :
    (∃ kind leafKind field e, m = { f with kind }.take leafKind field t e ∧
      (field.isSome → ∃ w, t.symbol = .word w) ∧
      (kind = .command → f.kind = .command ∧
        (∀ staged scan, f.expect = .arguments staged scan → field.isSome))) ∨
    (∃ kind field leafKind leafField e e',
      m = f.enter e (.opened kind field leafKind leafField t e') ∧
      (leafField.isSome → ∃ w, t.symbol = .word w) ∧
      (kind = .command → leafField.isSome)) ∨
    m = ⟨f.piped t, none⟩ ∧ ∃ scan, f.expect = .arguments false scan := by
  have hconstruct : ∀ {field w}, t.symbol.starter? = some w →
      ∃ kind field' leafKind leafField e',
        construct field t w = .opened kind field' leafKind leafField t e' ∧
          (leafField.isSome → ∃ w, t.symbol = .word w) ∧
          (kind = .command → leafField.isSome) := by
    intro field w hs
    have hword := (Symbol.starter?_eq_some.1 hs).1
    unfold construct
    split
    · exact ⟨_, _, _, _, _, rfl, by simp, by simp⟩
    · split
      · exact ⟨_, _, _, _, _, rfl, by simp, by simp⟩
      · split
        · exact ⟨_, _, _, _, _, rfl, by simp, by simp⟩
        · exact ⟨_, _, _, _, _, rfl, fun _ => ⟨w, hword⟩, fun _ => rfl⟩
  have hlist : ∀ {h j}, f.Lists t h j → ∀ staged scan, f.expect ≠ .arguments staged scan := by
    intro h j hl staged scan he
    have hholder := Expect.holder?_of_listed? hl
    rw [he] at hholder
    cases hholder
  cases hm with
  | terminator hl | comment hl =>
    exact .inl ⟨f.kind, _, _, _, rfl, by simp, fun hk => ⟨hk, fun _ _ he =>
      absurd he (hlist hl _ _)⟩⟩
  | @close _ _ _ b =>
    exact .inl ⟨b.kind, _, _, _, rfl, by simp, fun hk => by cases b <;> cases hk⟩
  | join | dangle | garble | stray | conditionJoin =>
    exact .inr (.inl ⟨_, _, _, _, _, _, rfl, by simp, by simp⟩)
  | @clause _ _ c =>
    refine .inr (.inl ?_)
    cases c <;> exact ⟨_, _, _, _, _, _, rfl, by simp, by simp⟩
  | begin _ hs | condition _ hs | conjoined _ hs | connected _ hs | joined _ hs =>
    obtain ⟨_, _, _, _, _, heq, hlabel⟩ := hconstruct hs
    exact .inr (.inl ⟨_, _, _, _, _, _, by rw [heq], hlabel⟩)
  | @staged w he hs =>
    exact .inr (.inl ⟨_, _, _, _, _, _, rfl, fun _ => ⟨w, (Symbol.starter?_eq_some.1 hs).1⟩,
      fun _ => rfl⟩)
  | @functionName w he hs | @functionOption _ w he hs | @loopName _ w he hs
  | @loopItem _ w he hs | @headerWord _ w he hs | @finalWord w he hs | @argument _ _ w he hs =>
    exact .inl ⟨f.kind, _, _, _, rfl, fun _ => ⟨w, hs⟩, fun hk => ⟨hk, fun _ _ _ => rfl⟩⟩
  | @strayWord w he hs =>
    exact .inl ⟨f.kind, _, _, _, rfl, fun _ => ⟨w, (Symbol.starter?_eq_some.1 hs).1⟩,
      fun hk => ⟨hk, fun _ _ _ => rfl⟩⟩
  | elseIf =>
    exact .inl ⟨_, _, _, _, rfl, by simp, by simp⟩
  | loopIn he | conjunction he | connector he | garbage he | lineBreak he | lineComment he
  | stageBreak he =>
    exact .inl ⟨f.kind, _, _, _, rfl, by simp, fun hk => ⟨hk, fun _ _ he' => by
      rw [he] at he'; cases he'⟩⟩
  | bar he =>
    refine .inl ⟨f.kind, _, _, _, rfl, by simp, fun hk => ⟨hk, fun _ _ he' => ?_⟩⟩
    obtain he | he := he <;> rw [he] at he' <;> cases he'
  | pipe he => exact .inr (.inr ⟨rfl, _, he⟩)

lemma Awaits.kind_ne_command (hawaits : f.Awaits source inner) : f.kind ≠ .command := by
  intro hk
  obtain ⟨clauses, hfits, -⟩ := hawaits.add []
  obtain ⟨staged, scan, he⟩ := Expect.Fits.expect_of_command hfits hk
  have hwordless : f.expect.isWordless = true := Expect.Awaits.isWordless hawaits
  rw [show f.expect = .arguments staged scan from he] at hwordless
  cases hwordless

lemma Labelled.addInner (h : f.Labelled words) (hinner : inner.Labelled words)
    (hf : f.kind ≠ .command) : (f.add inner.phrase).Labelled words where
  parts := by
    rw [parts_add]
    refine ⟨forall_mem_concat h.parts.words fun _ span hspan => ?_, fun hk => absurd hk hf⟩
    cases hspan
  inside := List.forall_mem_cons.2 ⟨hinner.phrase, h.inside⟩

theorem Labelled.move (h : f.Labelled words) (hr : f.Ready source gs t)
    (ht : ∀ w, t.symbol = .word w → words t.span) (hm : f.Rule t m) :
    m.frame.Labelled words ∧ ∀ inner, m.inner? = some inner → inner.Labelled words := by
  have hleaf : ∀ {kind : NodeKind} {field : Option Field},
      (field.isSome → ∃ w, t.symbol = .word w) →
        (Phrase.leaf kind field t.span).part.field.isSome →
          ∀ span ∈ (Phrase.leaf kind field t.span).part.leaf?, words span := by
    intro kind field hword hfield span hspan
    obtain ⟨w, hw⟩ := hword hfield
    rw [← Option.some_inj.1 hspan]
    exact ht w hw
  obtain ⟨kind, leafKind, field, e, rfl, hword, hcommand⟩ |
    ⟨kind, field, leafKind, leafField, e, e', rfl, hword, hcommand⟩ | ⟨rfl, scan, he⟩ := hm.label
  · refine ⟨⟨?_, List.forall_mem_cons.2 ⟨.leaf, h.inside⟩⟩, fun inner hi => by cases hi⟩
    show FishScript.Labelled words kind (f.add (.leaf leafKind field t.span)).parts
    rw [parts_add]
    refine ⟨forall_mem_concat h.parts.words (hleaf hword), fun hk => ?_⟩
    obtain ⟨hf, hfield⟩ := hcommand hk
    obtain ⟨clauses, hfits, -⟩ := hr
    obtain ⟨staged, scan, he⟩ := Expect.Fits.expect_of_command hfits hf
    exact forall_mem_concat (h.parts.arguments hf) ⟨rfl, hfield _ _ he⟩
  · refine ⟨⟨h.parts, h.inside⟩, fun inner hi => ?_⟩
    cases hi
    exact ⟨⟨List.forall_mem_singleton.2 (hleaf hword),
      fun hk => List.forall_mem_singleton.2 ⟨rfl, hcommand hk⟩⟩, List.forall_mem_singleton.2 .leaf⟩
  · -- the command before the bar is complete
    have hkind : f.kind = .command := (hr.fits he (by simp)).2.1
    have hphrase : (Phrase.node .command none f.phrases.reverse).Each
        (FishScript.Labelled words) :=
      .node (hkind ▸ h.parts) fun p hp => h.inside p (List.mem_reverse.1 hp)
    refine ⟨⟨⟨?_, fun hk => by cases hk⟩, ?_⟩, fun inner hi => by cases hi⟩
    · simp [piped, Frame.parts, Phrase.part]
    · exact List.forall_mem_cons.2 ⟨.leaf, List.forall_mem_singleton.2 hphrase⟩

end Frame

/-- A word of some terminals stands there. -/
def IsWordAt (ts : List Terminal) (span : Span) : Prop :=
  ∃ t ∈ ts, t.span = span ∧ ∃ w, t.symbol = .word w

lemma Frame.Labelled.isKept (source : Text) (gs : List Span) (ts : List Terminal) :
    Frame.IsKept source gs ts (Frame.Labelled (IsWordAt ts)) where
  initial := ⟨⟨List.forall_mem_nil _, fun _ => List.forall_mem_nil _⟩, List.forall_mem_nil _⟩
  add h hinner hawaits _ := h.addInner hinner hawaits.kind_ne_command
  move ht h hr hm := h.move hr (fun w hw => ⟨_, ht, rfl, w, hw⟩) hm

/-- In the tree of a source the leaves with a role are words of the source, and a command has no
other children. -/
theorem labelled_of_mem_preorder {source : Text} {n : Node} (hn : n ∈ (rootOf source).preorder) :
    Labelled (IsWordAt (limited source)) n.kind n.parts := by
  obtain hnone | h := (Frame.Labelled.isKept _ _ _).of_mem (fun _ h => h.phrase) hn
  · rw [Node.parts, hnone]
    exact ⟨List.forall_mem_nil _, fun _ => List.forall_mem_nil _⟩
  · exact h

lemma Token.kind_of_symbol {tok : Token} {w : Text} (h : tok.symbol = .word w) :
    tok.kind = .word := by
  unfold symbol at h
  split at h <;> first | assumption | cases h

/-- A leaf with a role is a word of the source. -/
theorem exists_word_of_role {source : Text} {p n : Node} (hp : p ∈ (rootOf source).preorder)
    (hn : n ∈ p.children) (hnone : n.children = []) (hfield : n.field.isSome) :
    ∃ tok ∈ tokens source, tok.kind = .word ∧ n.span = tok.terminal.span ∧
      n.text source = tok.text := by
  have hleaf : n.part.leaf? = some n.span := by simp [Node.part, hnone]
  obtain ⟨t, ht, hspan, w, hw⟩ := (labelled_of_mem_preorder hp).words n.part
    (List.mem_map_of_mem hn) hfield n.span hleaf
  have htext : n.text source = w := by
    rw [Node.text, ← hspan, reads_of_mem_limited ht w hw]
    rfl
  rcases mem_limitFrom ht with ht | hgarbage
  · obtain ⟨tok, htok, rfl⟩ := List.mem_map.1 ht
    have hk : tok.kind = .word := Token.kind_of_symbol hw
    have hword : tok.text = w := by simpa [Token.terminal, Token.symbol, hk] using hw
    exact ⟨tok, htok, hk, hspan.symm, by rw [htext, hword]⟩
  · rw [hgarbage] at hw
    cases hw

end FishScript
