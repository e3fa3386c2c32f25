/-
# The shapes of nodes

What the children of a node of each kind look like, as far as it concerns blocks, their clauses
and conditions, and the nodes for source that fits nowhere. Of a child only its *part* counts:
its kind, its role and, if it is a leaf, its place. So the same words describe nodes of a tree
and phrases that are still being put together.

The rules that judge a tree rely on these shapes without checking them.
-/
import Mathlib
import FishScript.Grammar.Parser

namespace FishScript

/-! ## Parts -/

/-- What a child shows of itself to the node that holds it. -/
structure Part where
  /-- What it stands for. -/
  kind : NodeKind
  /-- Its role. -/
  field : Option Field
  /-- Where it stands, if it has no children. -/
  leaf? : Option Span
deriving DecidableEq

/-- What a node shows to the node that holds it. -/
def Node.part (n : Node) : Part :=
  ⟨n.kind, n.field, if n.children.isEmpty then some n.span else none⟩

lemma Node.children_eq_nil {n : Node} (h : n.part.leaf?.isSome) : n.children = [] := by
  by_contra hne
  simp [part, hne] at h

/-- What the children of a node show. -/
def Node.parts (n : Node) : List Part := n.children.map Node.part

/-- What a phrase shows to the node that holds it. -/
def Phrase.part : Phrase → Part
  | .leaf kind field span => ⟨kind, field, some span⟩
  | .node kind field _ => ⟨kind, field, none⟩

namespace Part

/-- The part is a keyword that the source spells `w`. -/
def isKeyword (source w : Text) (p : Part) : Bool :=
  p.kind == .keyword && p.leaf?.bind (·.text? source) == some w

/-- The part is the keyword that closes a block. -/
def isEnd (source : Text) (p : Part) : Bool := p.isKeyword source "end".toList

/-- The part is a word that is labelled as an argument. -/
def IsArgument (p : Part) : Prop :=
  p.leaf?.isSome ∧ p.field = some .argument ∧ (p.kind = .word ∨ p.kind = .option)

/-- The part is a bar or a connector without a label. -/
def IsOperator (p : Part) : Prop := p.leaf?.isSome ∧ p.field = none ∧ p.kind = .operator

/-- The part is a leaf without a label that stands for a word or for garbage. -/
def IsWord (p : Part) : Prop := p.leaf?.isSome ∧ p.field = none ∧ p.kind = .word

/-- The part is neither a clause nor labelled as a condition. -/
def Plain (p : Part) : Prop := p.kind.isClause = false ∧ p.field ≠ some .condition

end Part

/-! ## Blocks -/

namespace Block

lemma ne_kind {kind : NodeKind} (h : all.any (kind == ·.kind) = false) (b : Block) :
    kind ≠ b.kind := by
  rintro rfl
  cases b <;> cases h

/-- The part may stand in a block between the opening word and the clauses: it does not close the
block and is no clause, and it is a condition only if the block has one. -/
def Holds (source : Text) (b : Block) (p : Part) : Prop :=
  p.isEnd source = false ∧ p.kind.isClause = false ∧
    (p.field = some .condition → b = .ifBlock ∨ b = .whileLoop)

/-- The parts are the clauses of a block, in the order in which it may have them. -/
def Clauses : Block → List Part → Prop
  | .ifBlock, ps => ∃ elseIfs elses, ps = elseIfs ++ elses ∧ elses.length ≤ 1 ∧
      (∀ p ∈ elseIfs, p.kind = .elseIfClause) ∧ ∀ p ∈ elses, p.kind = .elseClause
  | .switchBlock, ps => ∀ p ∈ ps, p.kind = .caseClause
  | _, ps => ps = []

/-- The parts are a block that ends with `clauses` and is not closed. -/
def Opened (source : Text) (b : Block) (parts clauses : List Part) : Prop :=
  b.Clauses clauses ∧ (∀ p ∈ clauses, p.field = none ∧ p.leaf? = none) ∧
    ∃ opener body, parts = opener :: (body ++ clauses) ∧
      opener.isKeyword source b.opener.toList = true ∧ opener.field = none ∧
      ∀ p ∈ body, b.Holds source p

/-- The parts are a block without its `end`: its own opening word, what it holds, its clauses. -/
def Unclosed (source : Text) (b : Block) (parts : List Part) : Prop :=
  ∃ clauses, b.Opened source parts clauses

/-- The parts are a block with its `end`, after which only arguments follow. -/
def Closed (source : Text) (b : Block) (parts : List Part) : Prop :=
  ∃ front close args, parts = front ++ close :: args ∧ b.Unclosed source front ∧
    close.isEnd source = true ∧ close.field = none ∧ ∀ p ∈ args, p.IsArgument

end Block

/-! ## Source that fits nowhere -/

/-- The shapes of a node for source that fits nowhere. -/
inductive ErrorShape
  /-- A block without its `end`. -/
  | unclosed
  /-- A closing word that closes nothing, with the words after it. -/
  | stray
  /-- Connectors without a statement before them, with the statement after them. -/
  | connectors
  /-- Garbage, with the words that run into it. -/
  | garbage
deriving DecidableEq, Repr

namespace ErrorShape

/-- The parts have the shape, when `gs` are the places of the garbage in the source. -/
def Fits (source : Text) (gs : List Span) : ErrorShape → List Part → Prop
  | .unclosed, ps => ∃ b : Block, b.Unclosed source ps
  | .stray, ps => ∃ (c : Closing) (keyword : Part) (args : List Part), ps = keyword :: args ∧
      keyword.isKeyword source c.word.toList = true ∧ keyword.field = none ∧
      ∀ p ∈ args, p.IsArgument
  | .connectors, ps => ∃ operators operand, ps = operators ++ operand ∧ operators ≠ [] ∧
      (∀ p ∈ operators, p.IsOperator) ∧ operand.length ≤ 1 ∧ ∀ p ∈ operand, p.leaf? = none ∧ p.Plain
  | .garbage, ps => ∃ first words, ps = first :: words ∧ (∃ s ∈ gs, first.leaf? = some s) ∧
      ∀ p ∈ ps, p.IsWord

/-- The only shape that parts with the given first one can have. -/
def ofFirst (source : Text) (p : Part) : ErrorShape :=
  match p.kind with
  | .operator => .connectors
  | .word => .garbage
  | _ => if Closing.all.any fun c => p.isKeyword source c.word.toList then .stray else .unclosed

variable {source : Text} {gs : List Span}

lemma ofFirst_of_keyword {p : Part} {w : Text} (h : p.isKeyword source w = true) :
    ofFirst source p =
      if Closing.all.any fun c => decide (c.word.toList = w) then .stray else .unclosed := by
  simp only [Part.isKeyword, Bool.and_eq_true, beq_iff_eq] at h
  obtain ⟨hkind, htext⟩ := h
  have heq : ∀ c : Closing, p.isKeyword source c.word.toList = decide (c.word.toList = w) := by
    intro c
    rw [Bool.eq_iff_iff]
    simp only [Part.isKeyword, hkind, htext, beq_self_eq_true, Bool.true_and, beq_iff_eq,
      Option.some.injEq, decide_eq_true_eq]
    exact eq_comm
  simp only [ofFirst, hkind, heq]

lemma Fits.ofFirst_eq {s : ErrorShape} {p : Part} {ps : List Part}
    (h : s.Fits source gs (p :: ps)) : ofFirst source p = s := by
  cases s with
  | unclosed =>
    obtain ⟨b, clauses, -, -, opener, body, heq, hopener, -⟩ := h
    obtain ⟨rfl, -⟩ := List.cons.inj heq
    rw [ofFirst_of_keyword hopener]
    cases b <;> decide
  | stray =>
    obtain ⟨c, keyword, args, heq, hkeyword, -⟩ := h
    obtain ⟨rfl, -⟩ := List.cons.inj heq
    rw [ofFirst_of_keyword hkeyword]
    cases c <;> decide
  | connectors =>
    obtain ⟨operators, operand, heq, hne, hops, -⟩ := h
    obtain ⟨q, qs, rfl⟩ := List.exists_cons_of_ne_nil hne
    obtain ⟨rfl, -⟩ := List.cons.inj heq
    simp only [ofFirst, (hops p (by simp)).2.2]
  | garbage =>
    obtain ⟨first, words, heq, -, hwords⟩ := h
    simp only [ofFirst, (hwords p (by simp)).2.2]

lemma Fits.ne_nil {s : ErrorShape} {ps : List Part} (h : s.Fits source gs ps) : ps ≠ [] := by
  rintro rfl
  cases s with
  | unclosed =>
    obtain ⟨b, clauses, -, -, opener, body, heq, -⟩ := h
    cases heq
  | stray =>
    obtain ⟨c, keyword, args, heq, -⟩ := h
    cases heq
  | connectors =>
    obtain ⟨operators, operand, heq, hne, -⟩ := h
    exact hne (List.append_eq_nil_iff.1 heq.symm).1
  | garbage =>
    obtain ⟨first, words, heq, -⟩ := h
    cases heq

lemma Fits.unique {s s' : ErrorShape} {ps : List Part} (h : s.Fits source gs ps)
    (h' : s'.Fits source gs ps) : s = s' := by
  obtain ⟨p, ps, rfl⟩ := List.exists_cons_of_ne_nil h.ne_nil
  rw [← h.ofFirst_eq, ← h'.ofFirst_eq]

end ErrorShape

/-! ## Nodes of each kind -/

/-- What the children of a node of some kind look like. -/
inductive Schema (source : Text) (gs : List Span) : NodeKind → List Part → Prop
  /-- A block. -/
  | block {b : Block} {ps : List Part} (h : b.Closed source ps) : Schema source gs b.kind ps
  /-- Source that fits nowhere. -/
  | error {s : ErrorShape} {ps : List Part} (h : s.Fits source gs ps) : Schema source gs .error ps
  /-- A further condition of a conditional. -/
  | elseIf {ps : List Part} (h : ∀ p ∈ ps, p.kind.isClause = false) :
      Schema source gs .elseIfClause ps
  /-- Anything else. -/
  | plain {kind : NodeKind} {ps : List Part} (hb : ∀ b : Block, kind ≠ b.kind)
      (he : kind ≠ .error) (h : ∀ p ∈ ps, p.Plain) : Schema source gs kind ps

/-- The parts of a node of some kind are in order: closed blocks have one `end` and nothing but
arguments behind it, clauses and conditions stand only where they belong, and source that fits
nowhere has exactly one of four shapes. -/
structure WellShaped (source : Text) (gs : List Span) (kind : NodeKind) (ps : List Part) :
    Prop where
  closed : ∀ b : Block, kind = b.kind → b.Closed source ps
  one_end : ∀ b : Block, kind = b.kind → ps.countP (·.isEnd source) = 1
  cases : (∃ p ∈ ps, p.kind = .caseClause) →
    kind = .switchStatement ∨ kind = .error ∧ Block.switchBlock.Unclosed source ps
  elses : (∃ p ∈ ps, p.kind = .elseIfClause ∨ p.kind = .elseClause) →
    kind = .ifStatement ∨ kind = .error ∧ Block.ifBlock.Unclosed source ps
  conditions : (∃ p ∈ ps, p.field = some .condition) →
    kind = .ifStatement ∨ kind = .elseIfClause ∨ kind = .whileStatement ∨
      kind = .error ∧ (Block.ifBlock.Unclosed source ps ∨ Block.whileLoop.Unclosed source ps)
  error : kind = .error → ∃! s : ErrorShape, s.Fits source gs ps

namespace Part

variable {source : Text} {p : Part}

lemma isKeyword_kind {w : Text} (h : p.isKeyword source w = true) : p.kind = .keyword := by
  simp only [isKeyword, Bool.and_eq_true, beq_iff_eq] at h
  exact h.1

lemma isEnd_eq_false_of_kind (h : p.kind ≠ .keyword) : p.isEnd source = false := by
  simp [isEnd, isKeyword, h]

lemma IsArgument.kind_ne (h : p.IsArgument) : p.kind ≠ .keyword := by
  obtain ⟨-, -, h | h⟩ := h <;> simp [h]

lemma IsArgument.plain (h : p.IsArgument) : p.Plain := by
  obtain ⟨-, hf, h | h⟩ := h <;> exact ⟨by simp [h, NodeKind.isClause], by simp [hf]⟩

lemma plain_of_isKeyword {w : Text} (h : p.isKeyword source w = true) (hf : p.field = none) :
    p.Plain :=
  ⟨by simp [isKeyword_kind h, NodeKind.isClause], by simp [hf]⟩

end Part

namespace Block

variable {source : Text} {b : Block} {ps : List Part}

lemma isEnd_of_opener {p : Part} (h : p.isKeyword source b.opener.toList = true) :
    p.isEnd source = false := by
  simp only [Part.isEnd, Part.isKeyword, Bool.and_eq_true, beq_iff_eq] at h ⊢
  rw [h.2]
  cases b <;> simp [opener]

lemma Clauses.isClause (h : b.Clauses ps) : ∀ p ∈ ps, p.kind.isClause = true := by
  intro p hp
  cases b with
  | ifBlock =>
    obtain ⟨elseIfs, elses, rfl, -, hif, helse⟩ := h
    rcases List.mem_append.1 hp with hp | hp
    · rw [hif p hp]; rfl
    · rw [helse p hp]; rfl
  | switchBlock => rw [h p hp]; rfl
  | _ =>
    rw [show ps = [] from h] at hp
    cases hp

lemma Unclosed.isEnd (h : b.Unclosed source ps) : ∀ p ∈ ps, p.isEnd source = false := by
  obtain ⟨clauses, hcl, -, opener, body, rfl, hopener, -, hbody⟩ := h
  intro p hp
  rcases List.mem_cons.1 hp with rfl | hp
  · exact isEnd_of_opener hopener
  · rcases List.mem_append.1 hp with hp | hp
    · exact (hbody p hp).1
    · refine Part.isEnd_eq_false_of_kind fun hk => ?_
      have hclause := hcl.isClause p hp
      rw [hk] at hclause
      cases hclause

lemma Closed.countP_isEnd (h : b.Closed source ps) : ps.countP (·.isEnd source) = 1 := by
  obtain ⟨front, close, args, rfl, hfront, hclose, -, hargs⟩ := h
  have hfront' : front.countP (·.isEnd source) = 0 :=
    List.countP_eq_zero.2 fun p hp => by simp [hfront.isEnd p hp]
  have hargs' : args.countP (·.isEnd source) = 0 :=
    List.countP_eq_zero.2 fun p hp => by
      simp [Part.isEnd_eq_false_of_kind (hargs p hp).kind_ne]
  rw [List.countP_append, List.countP_cons, hfront', hargs', hclose]
  rfl

/-- Which clauses and conditions a block without its `end` has tells which block it is. -/
lemma Unclosed.mem (h : b.Unclosed source ps) {p : Part} (hp : p ∈ ps) :
    (p.kind = .caseClause → b = .switchBlock) ∧
    (p.kind = .elseIfClause ∨ p.kind = .elseClause → b = .ifBlock) ∧
    (p.field = some .condition → b = .ifBlock ∨ b = .whileLoop) := by
  obtain ⟨clauses, hcl, hfield, opener, body, rfl, hopener, hopener', hbody⟩ := h
  have hnone : p.kind.isClause = false →
      ¬ p.kind = .caseClause ∧ ¬ (p.kind = .elseIfClause ∨ p.kind = .elseClause) := by
    intro h
    constructor
    · intro hk
      simp [hk, NodeKind.isClause] at h
    · rintro (hk | hk) <;> simp [hk, NodeKind.isClause] at h
  rcases List.mem_cons.1 hp with rfl | hp
  · have hplain := Part.plain_of_isKeyword hopener hopener'
    obtain ⟨hcase, helse⟩ := hnone hplain.1
    exact ⟨fun h => absurd h hcase, fun h => absurd h helse, fun h => absurd h hplain.2⟩
  · rcases List.mem_append.1 hp with hp | hp
    · obtain ⟨-, hclause, hcond⟩ := hbody p hp
      obtain ⟨hcase, helse⟩ := hnone hclause
      exact ⟨fun h => absurd h hcase, fun h => absurd h helse, hcond⟩
    · refine ⟨fun hk => ?_, fun hk => ?_, fun hf => ?_⟩
      · cases b with
        | switchBlock => rfl
        | ifBlock =>
          obtain ⟨elseIfs, elses, rfl, -, hif, helse⟩ := hcl
          rcases List.mem_append.1 hp with hp | hp
          · simp [hif p hp] at hk
          · simp [helse p hp] at hk
        | _ =>
          rw [show clauses = [] from hcl] at hp
          cases hp
      · cases b with
        | ifBlock => rfl
        | switchBlock => simp [hcl p hp] at hk
        | _ =>
          rw [show clauses = [] from hcl] at hp
          cases hp
      · simp [(hfield p hp).1] at hf

end Block

namespace Schema

variable {source : Text} {gs : List Span} {kind : NodeKind} {ps : List Part}

/-- The block that a part gives away by being a clause or a condition. -/
lemma mem (h : Schema source gs kind ps) {p : Part} (hp : p ∈ ps) :
    (p.kind.isClause = false ∧ (p.field = some .condition → kind = .elseIfClause)) ∨
      ∃ b : Block, (kind = b.kind ∨ kind = .error ∧ b.Unclosed source ps) ∧
        (p.kind = .caseClause → b = .switchBlock) ∧
        (p.kind = .elseIfClause ∨ p.kind = .elseClause → b = .ifBlock) ∧
        (p.field = some .condition → b = .ifBlock ∨ b = .whileLoop) := by
  have hplain : p.Plain →
      p.kind.isClause = false ∧ (p.field = some .condition → kind = .elseIfClause) :=
    fun h => ⟨h.1, fun hf => absurd hf h.2⟩
  cases h with
  | @block b ps h =>
    obtain ⟨front, close, args, rfl, hfront, hclose, hfield, hargs⟩ := h
    -- clauses and conditions stand before the `end`
    rcases List.mem_append.1 hp with hp | hp
    · exact .inr ⟨b, .inl rfl, hfront.mem hp⟩
    · left
      apply hplain
      rcases List.mem_cons.1 hp with rfl | hp
      · exact Part.plain_of_isKeyword hclose hfield
      · exact (hargs p hp).plain
  | @error s ps h =>
    cases s with
    | unclosed =>
      obtain ⟨b, hb⟩ := h
      exact .inr ⟨b, .inr ⟨rfl, hb⟩, hb.mem hp⟩
    | stray =>
      left
      apply hplain
      obtain ⟨c, keyword, args, rfl, hkeyword, hfield, hargs⟩ := h
      rcases List.mem_cons.1 hp with rfl | hp
      · exact Part.plain_of_isKeyword hkeyword hfield
      · exact (hargs p hp).plain
    | connectors =>
      left
      apply hplain
      obtain ⟨operators, operand, rfl, -, hops, -, hoperand⟩ := h
      rcases List.mem_append.1 hp with hp | hp
      · obtain ⟨-, hf, hk⟩ := hops p hp
        exact ⟨by simp [hk, NodeKind.isClause], by simp [hf]⟩
      · exact (hoperand p hp).2
    | garbage =>
      left
      apply hplain
      obtain ⟨first, words, rfl, -, hwords⟩ := h
      obtain ⟨-, hf, hk⟩ := hwords p hp
      exact ⟨by simp [hk, NodeKind.isClause], by simp [hf]⟩
  | elseIf h => exact .inl ⟨h p hp, fun _ => rfl⟩
  | plain hb he h => exact .inl (hplain (h p hp))

lemma closed (h : Schema source gs kind ps) {b : Block} (hk : kind = b.kind) :
    b.Closed source ps := by
  cases h with
  | @block b' ps h =>
    have hb : b' = b := by cases b' <;> cases b <;> first | rfl | cases hk
    rw [← hb]
    exact h
  | error h => cases b <;> cases hk
  | elseIf h => cases b <;> cases hk
  | plain hb he h => exact absurd hk (hb b)

theorem wellShaped (h : Schema source gs kind ps) : WellShaped source gs kind ps where
  closed b hk := h.closed hk
  one_end b hk := (h.closed hk).countP_isEnd
  cases := by
    rintro ⟨p, hp, hk⟩
    rcases h.mem hp with ⟨hclause, -⟩ | ⟨b, hb, hcase, -⟩
    · simp [hk, NodeKind.isClause] at hclause
    · obtain rfl := hcase hk
      exact hb
  elses := by
    rintro ⟨p, hp, hk⟩
    rcases h.mem hp with ⟨hclause, -⟩ | ⟨b, hb, -, helse, -⟩
    · obtain hk | hk := hk <;> simp [hk, NodeKind.isClause] at hclause
    · obtain rfl := helse hk
      exact hb
  conditions := by
    rintro ⟨p, hp, hf⟩
    rcases h.mem hp with ⟨-, hcond⟩ | ⟨b, hb, -, -, hcond⟩
    · exact .inr (.inl (hcond hf))
    · obtain rfl | rfl := hcond hf
      · exact hb.imp_right fun hb => .inr (.inr ⟨hb.1, .inl hb.2⟩)
      · exact .inr (.inr (hb.imp_right fun hb => ⟨hb.1, .inr hb.2⟩))
  error hk := by
    cases h with
    | @block b ps h => cases b <;> cases hk
    | @error s ps h => exact ⟨s, h, fun s' h' => h'.unique h⟩
    | elseIf h => cases hk
    | plain hb he h => exact absurd hk he

end Schema

end FishScript
