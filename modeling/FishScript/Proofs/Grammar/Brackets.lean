/-
# Blocks as brackets

A block opens at its first leaf and closes at its `end`, so every leaf of a phrase opens a block,
closes one or does neither. A step of the parser adds one leaf, and what this leaf does to the
number of open blocks is what the terminal has done to it for the scan of the grammar's blocks
(`Stack.Steady.brackets_step`). Nothing that is read later changes what a leaf has done.
-/
import Mathlib
import FishScript.Proofs.Grammar.Ends

namespace FishScript

namespace Nesting

/-- What the terminal does takes one number of open blocks to another. -/
def Leads (m n : Nat) : Nesting → Prop
  | .opens => n = m + 1
  | .closes => m = n + 1
  | .same => m = n

lemma Leads.unique {e e' : Nesting} {m n : Nat} (h : e.Leads m n) (h' : e'.Leads m n) :
    e = e' := by
  cases e <;> cases e' <;> simp only [Leads] at h h' <;> first | rfl | omega

end Nesting

/-! ## Brackets of phrases -/

/-- What a part does to the number of open blocks in a node that is a block or is none, as its
first part or as a later one. -/
def Part.bracket (source : Text) (block first : Bool) (p : Part) : Nesting :=
  if !block then .same else if first then .opens else if p.isEnd source then .closes else .same

mutual

/-- The leaves of a phrase, each with what it does to the number of open blocks. -/
def Phrase.brackets (source : Text) (block first : Bool) : Phrase → List (Leaf × Nesting)
  | .leaf kind field span =>
    [(⟨kind, field, span⟩, (Phrase.leaf kind field span).part.bracket source block first)]
  | .node kind _ children =>
    bracketsOf source (isConstruct source kind (children.map Phrase.part)) true children

/-- The same for some phrases in a node, from its first part on or from a later one. -/
def bracketsOf (source : Text) (block first : Bool) : List Phrase → List (Leaf × Nesting)
  | [] => []
  | p :: rest => p.brackets source block first ++ bracketsOf source block false rest

end

section Brackets

variable {source : Text} {block first : Bool}

lemma bracketsOf_append (ps qs : List Phrase) :
    bracketsOf source block first (ps ++ qs) =
      bracketsOf source block first ps ++ bracketsOf source block (first && ps.isEmpty) qs := by
  induction ps generalizing first with
  | nil => simp [bracketsOf]
  | cons p ps ih => simp [bracketsOf, ih]

lemma Part.bracket_false (first : Bool) (p : Part) : p.bracket source false first = .same := rfl

lemma Part.bracket_later {p : Part} (h : p.isEnd source = false) (block : Bool) :
    p.bracket source block false = .same := by
  cases block <;> simp [Part.bracket, h]

end Brackets

/-! ## Brackets of open nodes -/

namespace Frame

variable {source : Text} {gs : List Span} {f inner : Frame} {t : Terminal} {m : Move}

/-- The node is a block, closed or not. -/
def isConstruct (source : Text) (f : Frame) : Bool := FishScript.isConstruct source f.kind f.parts

/-- The leaves that the node holds so far, with what they do. -/
def brackets (source : Text) (f : Frame) : List (Leaf × Nesting) :=
  bracketsOf source (f.isConstruct source) true f.phrases.reverse

lemma isConstruct_iff : f.isConstruct source = true ↔ f.weight source = 1 := by
  rw [weight, FishScript.weight, isConstruct]
  cases FishScript.isConstruct source f.kind f.parts <;> simp

lemma isConstruct_congr {g : Frame} (h : f.weight source = g.weight source) :
    f.isConstruct source = g.isConstruct source := by
  rw [Bool.eq_iff_iff, isConstruct_iff, isConstruct_iff, h]

lemma brackets_phrase (f : Frame) (block first : Bool) :
    f.phrase.brackets source block first = f.brackets source := by
  rw [phrase, Phrase.brackets]
  rfl

lemma brackets_cons {ps : List Phrase} {p : Phrase} (h : f.phrases = p :: ps) :
    f.brackets source = bracketsOf source (f.isConstruct source) true ps.reverse ++
      p.brackets source (f.isConstruct source) ps.isEmpty := by
  rw [brackets, h, List.reverse_cons, bracketsOf_append, List.isEmpty_reverse, Bool.true_and]
  simp only [bracketsOf, List.append_nil]

lemma brackets_add (h : f.phrases ≠ [] ∨ f.kind ≠ .error) (g : Frame) :
    (f.add g.phrase).brackets source = f.brackets source ++ g.brackets source := by
  rw [brackets_cons (show (f.add g.phrase).phrases = g.phrase :: f.phrases from rfl),
    brackets_phrase, isConstruct_congr (weight_add h g.phrase)]
  rfl

/-! ### What a move does to the number of open blocks -/

/-- A node that is no finished block and waits for more than words weighs what it waits for. -/
lemma Ready.weight_eq (hr : f.Ready source gs t) (he : f.expect ≠ .finalWords) :
    f.weight source = f.expect.blockCount := by
  obtain ⟨clauses, hfits, -⟩ := hr
  exact Expect.Fits.weight_eq hfits he

lemma Lists.blockCount_eq {h : Holder} {j : Bool} (hl : f.Lists t h j) :
    f.expect.blockCount = h.blockCount := by
  rw [Expect.blockCount, Expect.holder?_of_listed? hl]
  rfl

/-- A node that takes an `end` is a block up to then. Any other terminal that it takes leaves it as
it is. -/
lemma Rule.blockCount_take (hm : f.Rule t m) (ht : t.Reads source) (hi : m.inner? = none) :
    (f.expect.blockCount = 1 ∧ m.frame.expect.blockCount = 0 ∧
      ∀ p ∈ m.frame.phrases.head?, p.part.isEnd source = true) ∨
    (m.frame.expect.blockCount = f.expect.blockCount ∧
      ∀ p ∈ m.frame.phrases.head?, p.part.isEnd source = false) := by
  cases hm with
  | join | dangle | garble | begin | clause | stray | condition | conditionJoin | conjoined
  | connected | joined | staged => cases hi
  | @close h j c b hl hs hrole =>
    obtain ⟨rfl, rfl⟩ := Holder.role_eq_closes hrole
    refine .inl ⟨hl.blockCount_eq, rfl, ?_⟩
    rintro p ⟨⟩
    exact ht.isKeyword (Terminal.closing?_eq_some hs)
  | terminator hl | comment hl =>
    refine .inr ⟨hl.blockCount_eq.symm, ?_⟩
    rintro p ⟨⟩
    exact isEnd_leaf (by simp)
  | functionName he | loopName he | pipe he | connector he | garbage he | lineBreak he
  | lineComment he | stageBreak he =>
    refine .inr ⟨by rw [he]; rfl, ?_⟩
    rintro p ⟨⟩
    exact isEnd_leaf (by simp)
  | bar he =>
    refine .inr ⟨by obtain he | he := he <;> rw [he] <;> rfl, ?_⟩
    rintro p ⟨⟩
    exact isEnd_leaf (by simp)
  | loopIn he hs | elseIf he hs =>
    refine .inr ⟨by rw [he]; rfl, ?_⟩
    rintro p ⟨⟩
    exact Part.isEnd_eq_false_of_isKeyword (ht.isKeyword hs) (by decide)
  | conjunction he hs hw =>
    refine .inr ⟨by rw [he]; rfl, ?_⟩
    rintro p ⟨⟩
    obtain ⟨hs, hclosing⟩ := Symbol.starter?_eq_some.1 hs
    refine Part.isEnd_eq_false_of_isKeyword (ht.isKeyword hs) ?_
    rintro rfl
    cases hclosing
  | functionOption he | loopItem he | headerWord he | finalWord he | strayWord he =>
    refine .inr ⟨by rw [he]; rfl, ?_⟩
    rintro p ⟨⟩
    exact isEnd_word _
  | @argument staged scan w he hs =>
    refine .inr ⟨by rw [he]; rfl, ?_⟩
    rintro p ⟨⟩
    exact isEnd_leaf (scan_ne_keyword scan w)

lemma Rule.blockCount_enter (hm : f.Rule t m) (hi : m.inner? = some inner) :
    m.frame.expect.blockCount = f.expect.blockCount ∧ f.expect ≠ .finalWords := by
  have hlist : ∀ {h j}, f.Lists t h j → f.expect ≠ .finalWords := by
    intro h j hl he
    rw [Lists, he] at hl
    cases hl
  cases hm with
  | join hl | dangle hl | garble hl | begin hl | clause hl | stray hl =>
    exact ⟨hl.blockCount_eq.symm, hlist hl⟩
  | condition he | conditionJoin he | conjoined he | connected he | joined he | staged he =>
    rw [he]
    exact ⟨rfl, by simp⟩
  | _ => cases hi

lemma isConstruct_of_phrases_eq_nil (h : f.phrases ≠ [] ∨ f.IsRoot) (hnil : f.phrases = []) :
    f.isConstruct source = false := by
  have hroot : f.IsRoot := h.resolve_left (not_not.2 hnil)
  rw [isConstruct, hroot.1, parts, hnil]
  rfl

/-- A leaf that a node takes does to the number of open blocks what the move does. -/
lemma brackets_take (h : f.phrases ≠ [] ∨ f.IsRoot) (hr : f.Ready source gs t)
    (ht : t.Reads source) {kind leafKind : NodeKind} {field : Option Field} {e : Expect}
    (hm : f.Rule t ({ f with kind }.take leafKind field t e)) (outer : Nat) :
    ∃ a : Nesting,
      ({ f with kind }.take leafKind field t e).frame.brackets source =
        f.brackets source ++ [(⟨leafKind, field, t.span⟩, a)] ∧
      a.Leads (f.expect.blockCount + outer) (e.blockCount + outer) := by
  have hne : f.phrases ≠ [] ∨ f.kind ≠ .error := h.imp_right fun hroot => by simp [hroot.1]
  have hconstruct : ({ f with kind }.take leafKind field t e).frame.isConstruct source =
      f.isConstruct source := isConstruct_congr (hr.weight_move hne hm)
  refine ⟨_, by rw [brackets_cons rfl, hconstruct]; rfl, ?_⟩
  obtain ⟨hopen, hclosed, hend⟩ | ⟨hsame, hend⟩ := hm.blockCount_take ht rfl
  · -- the node is a block, and holds its opening word already
    have hblock : f.isConstruct source = true := by
      rw [isConstruct_iff, hr.weight_eq, hopen]
      intro he
      rw [he] at hopen
      cases hopen
    have hphrases : f.phrases.isEmpty = false := by
      rw [List.isEmpty_eq_false_iff]
      intro hnil
      rw [isConstruct_of_phrases_eq_nil h hnil] at hblock
      cases hblock
    have hleaf := hend _ rfl
    rw [hblock, hphrases, Part.bracket, if_neg (by simp), if_neg (by simp), if_pos hleaf]
    show _ = _
    rw [hopen, show e.blockCount = 0 from hclosed]
    omega
  · have hsame' : e.blockCount = f.expect.blockCount := hsame
    have hleaf := hend _ rfl
    have hnone : (Phrase.leaf leafKind field t.span).part.bracket source (f.isConstruct source)
        f.phrases.isEmpty = .same := by
      cases hphrases : f.phrases with
      | nil => rw [isConstruct_of_phrases_eq_nil h hphrases, Part.bracket_false]
      | cons p ps => exact Part.bracket_later hleaf _
    rw [hnone, hsame']
    rfl

lemma brackets_opened {kind leafKind : NodeKind} {field leafField : Option Field} {e : Expect}
    (hw : (opened kind field leafKind leafField t e).weight source = e.blockCount) (outer : Nat) :
    ∃ a : Nesting,
      (opened kind field leafKind leafField t e).brackets source =
        [(⟨leafKind, leafField, t.span⟩, a)] ∧ a.Leads outer (e.blockCount + outer) := by
  refine ⟨_, rfl, ?_⟩
  cases hblock : (opened kind field leafKind leafField t e).isConstruct source with
  | true =>
    rw [isConstruct_iff, hw] at hblock
    rw [hblock]
    exact Nat.add_comm 1 outer
  | false =>
    have hzero : e.blockCount = 0 := by
      rw [← hw, weight, FishScript.weight]
      rw [isConstruct] at hblock
      rw [hblock]
      rfl
    rw [hzero, Nat.zero_add]
    rfl

lemma brackets_piped (hr : f.Ready source gs t) {scan : DefinitionScan}
    (he : f.expect = .arguments false scan) :
    (f.piped t).brackets source =
      f.brackets source ++ [(⟨.operator, none, t.span⟩, .same)] := by
  obtain ⟨-, hkind, -⟩ := hr.fits he (by simp)
  have hcommand : (Phrase.node .command none f.phrases.reverse).brackets source false true =
      f.brackets source := by
    rw [Phrase.brackets, brackets, isConstruct, hkind]
    rfl
  rw [← hcommand]
  rfl

end Frame

/-! ## Brackets of the stack -/

namespace Stack

variable {source : Text} {gs : List Span} {t : Terminal}

/-- The leaves of some open nodes, the innermost node first, with what they do. -/
def openBrackets (source : Text) : List Frame → List (Leaf × Nesting)
  | [] => []
  | f :: below => openBrackets source below ++ f.brackets source

lemma openBrackets_pop {top next : Frame} {below : List Frame}
    (h : FilledUpTo top (next :: below)) :
    openBrackets source (next.add top.phrase :: below) =
      openBrackets source (top :: next :: below) := by
  rw [openBrackets, openBrackets, openBrackets,
    Frame.brackets_add (FilledUpTo.phrases_or_kind h.2.2), List.append_assoc]

lemma brackets_close {below : List Frame} {top : Frame} (h : FilledUpTo top below)
    (block first : Bool) :
    (close top below).brackets source block first = openBrackets source (top :: below) := by
  induction below generalizing top with
  | nil =>
    rw [close, Frame.brackets_phrase]
    rfl
  | cons next below ih => rw [close, ih h.pop, openBrackets_pop h]

/-- A move adds one leaf, which does what the move does to the number of open blocks. -/
lemma openBrackets_move {top : Frame} {below : List Frame} {m : Move}
    (ho : Offered source gs t top below) (ht : t.Reads source) (hg : t.Known gs)
    (hm : top.Rule t m) :
    ∃ (l : Leaf) (a : Nesting), l.Of t ∧
      openBrackets source ((ofMove m below).top :: (ofMove m below).below) =
        openBrackets source (top :: below) ++ [(l, a)] ∧
      a.Leads (top.expect.blockCount + weights source below)
        ((ofMove m below).top.expect.blockCount + weights source (ofMove m below).below) := by
  have hfilled := FilledUpTo.phrases_or_kind ho.filled
  have hweight := ho.ready.weight_move hfilled hm
  have hsettles := ho.ready.move ht hg hm
  cases hm.effect with
  | @take kind leafKind leafField expect hk =>
    obtain ⟨a, hbrackets, hleads⟩ :=
      Frame.brackets_take ho.filled.filled.1 ho.ready ht hm (weights source below)
    refine ⟨⟨leafKind, leafField, t.span⟩, a, ⟨rfl, hk⟩, ?_, hleads⟩
    show openBrackets source below ++
      ({ top with kind }.take leafKind leafField t expect).frame.brackets source = _
    rw [hbrackets, ← List.append_assoc]
    rfl
  | @enter kind leafKind field leafField outer inner hk =>
    obtain ⟨hcount, hne⟩ := hm.blockCount_enter rfl
    obtain ⟨-, hfits⟩ := hsettles
    -- no node is opened as a finished block, so it weighs what it waits for
    have hinner : (Frame.opened kind field leafKind leafField t inner).weight source =
        inner.blockCount := by
      by_cases he : inner = .finalWords
      · rw [hm.weight_inner rfl hfits he, he]
        rfl
      · exact Expect.Fits.weight_eq hfits he
    obtain ⟨a, hbrackets, hleads⟩ := Frame.brackets_opened hinner
      (top.expect.blockCount + weights source below)
    refine ⟨⟨leafKind, leafField, t.span⟩, a, ⟨rfl, hk⟩, ?_, ?_⟩
    · show openBrackets source (top :: below) ++
        (Frame.opened kind field leafKind leafField t inner).brackets source = _
      rw [hbrackets]
    · show a.Leads _ (inner.blockCount +
        ((top.enter outer (.opened kind field leafKind leafField t inner)).frame.weight source +
          weights source below))
      rw [hweight, ho.ready.weight_eq hne]
      exact hleads
  | pipe he hs =>
    refine ⟨⟨.operator, none, t.span⟩, .same, ⟨rfl, by simp [hs, Symbol.leafKinds]⟩, ?_, ?_⟩
    · show openBrackets source below ++ (top.piped t).brackets source = _
      rw [Frame.brackets_piped ho.ready he, ← List.append_assoc]
      rfl
    · rw [he]
      rfl

/-- What is known of the open nodes while a terminal is offered: their leaves are those of the
stack before, and so is the number of open blocks. -/
structure SameBrackets (source : Text) (s : Stack) (top : Frame) (below : List Frame) : Prop where
  brackets : openBrackets source (top :: below) = openBrackets source (s.top :: s.below)
  blocks : top.expect.blockCount + weights source below = (levels (s.top :: s.below)).length

lemma SameBrackets.pop {s : Stack} {top next : Frame} {below : List Frame}
    (h : SameBrackets source s top (next :: below)) (ho : Offered source gs t top (next :: below))
    (hn : top.accept t = none) : SameBrackets source s (next.add top.phrase) below := by
  refine ⟨by rw [openBrackets_pop ho.filled, h.brackets], ?_⟩
  have hawaits : next.weight source = next.expect.blockCount :=
    Expect.Awaits.weight_eq ho.chained.2.1
  rw [← h.blocks, Frame.blockCount_of_accept_eq_none hn, weights, hawaits, Nat.zero_add]
  rfl

/-- A step adds one leaf for its terminal, which does what the step does to the number of blocks
that the scan knows. -/
theorem Steady.brackets_step {s : Stack} (h : s.Steady source gs) (ht : t.Reads source)
    (hg : t.Known gs) :
    ∃ (l : Leaf) (a : Nesting), l.Of t ∧
      (s.step t).phrase.brackets source false true =
        s.phrase.brackets source false true ++ [(l, a)] ∧
      a.Leads (levels (s.top :: s.below)).length
        (levels ((s.step t).top :: (s.step t).below)).length := by
  have hafter := h.step ht hg
  have hphrase : ∀ {s : Stack}, s.Steady source gs →
      s.phrase.brackets source false true = openBrackets source (s.top :: s.below) :=
    fun h => brackets_close h.filled false true
  have hlength : ∀ {s : Stack}, s.Steady source gs →
      (levels (s.top :: s.below)).length = s.top.expect.blockCount + weights source s.below :=
    fun h => length_levels_top h.settled.grounded h.settled.wellShaped.2 h.settled.wellShaped.1
  rw [hphrase h, hphrase hafter, hlength hafter]
  refine h.step_induction (P := SameBrackets source s)
    (Q := fun s' => ∃ (l : Leaf) (a : Nesting), l.Of t ∧
      openBrackets source (s'.top :: s'.below) =
        openBrackets source (s.top :: s.below) ++ [(l, a)] ∧
      a.Leads (levels (s.top :: s.below)).length
        (s'.top.expect.blockCount + weights source s'.below))
    ⟨rfl, (hlength h).symm⟩ (fun ho hn h => h.pop ho hn) ?_
  intro top below m ho hm hsame
  rw [← hsame.brackets, ← hsame.blocks]
  exact openBrackets_move ho ht hg hm

end Stack

end FishScript
