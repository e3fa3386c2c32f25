/-
# Every source parses into well shaped nodes

What an open node holds so far is determined by what it expects next: `Frame.Fits` says it for
the innermost node, which has no clause in it, and `Frame.Awaits` for a node that waits for one
inside it, as far as the latter shows outside: whether it is a clause, and its role. The moves of
the grammar keep both (`Frame.Fits.move`, `Frame.Awaits.add`).

A clause is complete only before a closing word of its block (`Frame.Fits.leaves`). Therefore
nothing but a further clause or the `end` follows it.
-/
import Mathlib
import FishScript.Proofs.Grammar.Lossless
import FishScript.Proofs.Token.Slices
import FishScript.Proofs.Tree.Shape

namespace FishScript

/-! ## What terminals and kinds say -/

namespace NodeKind

/-- The block that a clause of the kind belongs to. -/
def clauseOf? : NodeKind → Option Block
  | .elseIfClause | .elseClause => some .ifBlock
  | .caseClause => some .switchBlock
  | _ => none

lemma clauseOf?_eq_none {kind : NodeKind} : kind.clauseOf? = none ↔ kind.isClause = false := by
  cases kind <;> simp [clauseOf?, isClause]

lemma clauseOf?_kind (b : Block) : b.kind.clauseOf? = none := by cases b <;> rfl

end NodeKind

namespace Terminal

/-- If the terminal is garbage, its place is among the places `gs`. -/
def Known (gs : List Span) (t : Terminal) : Prop := t.symbol = .garbage → t.span ∈ gs

lemma ofOpener?_eq_some {w : Text} {b : Block} (h : Block.ofOpener? w = some b) :
    w = b.opener.toList := by
  have := List.find?_some h
  simpa using (beq_iff_eq.1 this).symm

lemma closing?_eq_some {s : Symbol} {c : Closing} (h : s.closing? = some c) :
    s = .word c.word.toList := by
  cases s with
  | word w =>
    have := List.find?_some h
    rw [← beq_iff_eq.1 this]
  | _ => cases h

variable {source : Text} {t : Terminal}

lemma Reads.isKeyword {w : Text} (ht : t.Reads source) (hs : t.symbol = .word w) :
    (Phrase.leaf .keyword none t.span).part.isKeyword source w = true := by
  simp [Phrase.part, Part.isKeyword, ht w hs]

end Terminal

lemma Part.isEnd_eq_false_of_isKeyword {source w : Text} {p : Part}
    (h : p.isKeyword source w = true) (hw : w ≠ "end".toList) : p.isEnd source = false := by
  simp only [Part.isKeyword, Bool.and_eq_true, beq_iff_eq] at h
  simp only [Part.isEnd, Part.isKeyword, h.2, Bool.and_eq_false_iff, beq_eq_false_iff_ne, ne_eq,
    Option.some.injEq]
  exact .inr hw

namespace Phrase

/-- The nodes in a phrase have the shapes of their kinds. -/
inductive Shaped (source : Text) (gs : List Span) : Phrase → Prop
  /-- A leaf. -/
  | leaf {kind : NodeKind} {field : Option Field} {span : Span} (hb : ∀ b : Block, kind ≠ b.kind)
      (he : kind ≠ .error) : Shaped source gs (.leaf kind field span)
  /-- A node. -/
  | node {kind : NodeKind} {field : Option Field} {children : List Phrase}
      (hschema : Schema source gs kind (children.map part))
      (hshaped : ∀ p ∈ children, p.Shaped source gs) : Shaped source gs (.node kind field children)

lemma shaped_leaf_of_mem (source : Text) (gs : List Span) {s : Symbol} {kind : NodeKind}
    (hk : kind ∈ s.leafKinds) (field : Option Field) (span : Span) :
    (Phrase.leaf kind field span).Shaped source gs := by
  refine .leaf (fun b hb => ?_) fun he => ?_
  · subst hb
    cases b <;> cases s <;> simp [Symbol.leafKinds, Block.kind] at hk
  · subst he
    cases s <;> simp [Symbol.leafKinds] at hk

end Phrase

/-! ## Adding to parts -/

lemma forall_mem_concat {α : Type*} {P : α → Prop} {xs : List α} {x : α} (h : ∀ y ∈ xs, P y)
    (hx : P x) : ∀ y ∈ xs ++ [x], P y :=
  List.forall_mem_append.2 ⟨h, List.forall_mem_singleton.2 hx⟩

namespace Block

variable {source : Text} {b : Block} {ps clauses : List Part} {p : Part}

lemma Holds.of_plain (hp : p.Plain) (he : p.isEnd source = false) : b.Holds source p :=
  ⟨he, hp.1, fun hf => absurd hf hp.2⟩

lemma clauses_nil (b : Block) : b.Clauses [] := by
  cases b with
  | ifBlock => exact ⟨[], [], rfl, by simp, by simp, by simp⟩
  | switchBlock => exact fun p hp => by cases hp
  | _ => rfl

lemma Opened.add (h : b.Opened source ps []) (hp : b.Holds source p) :
    b.Opened source (ps ++ [p]) [] := by
  obtain ⟨-, -, opener, body, rfl, hopener, hfield, hbody⟩ := h
  exact ⟨b.clauses_nil, by simp, opener, body ++ [p], by simp, hopener, hfield,
    forall_mem_concat hbody hp⟩

lemma Opened.addClause (h : b.Opened source ps clauses) (hc : p.kind.clauseOf? = some b)
    (hfield : p.field = none) (hleaf : p.leaf? = none)
    (helse : ∀ q ∈ clauses, q.kind ≠ .elseClause) :
    b.Opened source (ps ++ [p]) (clauses ++ [p]) := by
  obtain ⟨hcl, hclauses, opener, body, rfl, hopener⟩ := h
  refine ⟨?_, ?_, opener, body, by simp, hopener⟩
  · cases b with
    | ifBlock =>
      obtain ⟨elseIfs, elses, rfl, -, hif, helses⟩ := hcl
      have hnil : elses = [] :=
        List.eq_nil_iff_forall_not_mem.2 fun q hq => helse q (by simp [hq]) (helses q hq)
      subst hnil
      cases hk : p.kind with
      | elseIfClause =>
        exact ⟨elseIfs ++ [p], [], by simp, by simp, forall_mem_concat hif hk, by simp⟩
      | elseClause =>
        exact ⟨elseIfs, [p], by simp, by simp, hif, List.forall_mem_singleton.2 hk⟩
      | _ => simp [hk, NodeKind.clauseOf?] at hc
    | switchBlock =>
      refine forall_mem_concat hcl ?_
      cases hk : p.kind <;> simp [hk, NodeKind.clauseOf?] at hc ⊢
    | _ => cases hk : p.kind <;> simp [hk, NodeKind.clauseOf?] at hc
  · exact forall_mem_concat hclauses ⟨hfield, hleaf⟩

end Block

/-! ## What open nodes hold -/

namespace Holder

/-- A node of some kind that holds statements has these parts, the last of which are `clauses`. -/
def Keeps (source : Text) (clauses : List Part) (kind : NodeKind) (ps : List Part) :
    Holder → Prop
  | .program => kind = .program ∧ clauses = [] ∧ ∀ p ∈ ps, p.Plain
  | .block b => kind = .error ∧ b.Opened source ps clauses
  | .elseIf => kind = .elseIfClause ∧ clauses = [] ∧ ∀ p ∈ ps, p.kind.isClause = false
  | .otherwise => kind = .elseClause ∧ clauses = [] ∧ ∀ p ∈ ps, p.Plain
  | .caseClause => kind = .caseClause ∧ clauses = [] ∧ ∀ p ∈ ps, p.Plain

/-- The node has a condition. -/
def HasCondition : Holder → Prop
  | .block b => b = .ifBlock ∨ b = .whileLoop
  | .elseIf => True
  | _ => False

/-- The node has words after its first one. -/
def HasWords : Holder → Prop
  | .block b => b = .switchBlock
  | .caseClause => True
  | _ => False

end Holder

namespace Expect

/-- A node of some kind that expects this has these parts, the last of which are `clauses`. -/
def Fits (source : Text) (gs : List Span) (clauses : List Part) (kind : NodeKind)
    (ps : List Part) : Expect → Prop
  | .statements h _ => h.Keeps source clauses kind ps
  | .functionHeader _ => clauses = [] ∧ (Holder.block .function).Keeps source [] kind ps
  | .loopHeader _ _ => clauses = [] ∧ (Holder.block .forLoop).Keeps source [] kind ps
  | .headerWords h => clauses = [] ∧ h.HasWords ∧ h.Keeps source [] kind ps
  | .condition h | .conditionRest h =>
    clauses = [] ∧ h.HasCondition ∧ h.Keeps source [] kind ps
  | .elseHead => clauses = [] ∧ Holder.otherwise.Keeps source [] kind ps
  | .finalWords => clauses = [] ∧ ((∃ b : Block, kind = b.kind ∧ b.Closed source ps) ∨
      kind = .returnStatement ∧ ∀ p ∈ ps, p.Plain)
  | .strayWords => clauses = [] ∧ kind = .error ∧ ErrorShape.stray.Fits source gs ps
  | .arguments _ _ => clauses = [] ∧ kind = .command ∧ ∀ p ∈ ps, p.Plain
  | .conjunctions | .joined =>
    clauses = [] ∧ kind = .conditionalExecution ∧ ∀ p ∈ ps, p.Plain
  | .connectors => clauses = [] ∧ kind = .error ∧ ps ≠ [] ∧ ∀ p ∈ ps, p.IsOperator
  | .garbage => clauses = [] ∧ kind = .error ∧ ErrorShape.garbage.Fits source gs ps
  | .stage | .bar => clauses = [] ∧ kind = .pipeline ∧ ∀ p ∈ ps, p.Plain
  | .nothing => clauses = [] ∧ ((kind = .conditionalExecution ∧ ∀ p ∈ ps, p.Plain) ∨
      kind = .error ∧ ErrorShape.connectors.Fits source gs ps)

/-- A node of some kind that expects this after a node inside it has these parts so far. The
inner node is a clause of the block `clauseOf?`, if it is a clause, and has the given role. -/
def Awaits (source : Text) (kind : NodeKind) (ps : List Part) (field : Option Field) :
    Option Block → Expect → Prop
  | some b, expect => expect = .statements (.block b) false ∧ field = none ∧ kind = .error ∧
      ∃ clauses, b.Opened source ps clauses ∧ ∀ p ∈ clauses, p.kind ≠ .elseClause
  | none, .statements h _ => field = none ∧ h.Keeps source [] kind ps
  | none, .conditionRest h =>
    field = some .condition ∧ h.HasCondition ∧ h.Keeps source [] kind ps
  | none, .nothing => field = none ∧ ((kind = .conditionalExecution ∧ ∀ p ∈ ps, p.Plain) ∨
      kind = .error ∧ ps ≠ [] ∧ ∀ p ∈ ps, p.IsOperator)
  | none, .bar => field = none ∧ kind = .pipeline ∧ ∀ p ∈ ps, p.Plain
  | none, _ => False

end Expect

namespace Frame

/-- What an open node shows of its phrases. -/
def parts (f : Frame) : List Part := f.phrases.reverse.map Phrase.part

/-- The node holds what it may hold where it is, and its last parts are `clauses`. -/
def Fits (source : Text) (gs : List Span) (clauses : List Part) (f : Frame) : Prop :=
  f.expect.Fits source gs clauses f.kind f.parts

/-- The node holds what it may hold while `inner` is open inside it. -/
def Awaits (source : Text) (f inner : Frame) : Prop :=
  f.expect.Awaits source f.kind f.parts inner.field inner.kind.clauseOf?

lemma parts_add (f : Frame) (p : Phrase) : (f.add p).parts = f.parts ++ [p.part] := by
  simp [parts, add]

end Frame

/-! ## Complete nodes -/

namespace Holder

variable {source : Text} {gs : List Span} {clauses ps : List Part} {kind : NodeKind} {h : Holder}
  {p : Part}

lemma Keeps.schema (hk : h.Keeps source clauses kind ps) : Schema source gs kind ps := by
  cases h with
  | program | otherwise | caseClause =>
    obtain ⟨rfl, -, hps⟩ := hk
    exact .plain (Block.ne_kind rfl) (by simp) hps
  | elseIf =>
    obtain ⟨rfl, -, hps⟩ := hk
    exact .elseIf hps
  | block b =>
    obtain ⟨rfl, hps⟩ := hk
    exact .error (s := .unclosed) ⟨b, clauses, hps⟩

lemma Keeps.add (hk : h.Keeps source [] kind ps) (hp : p.Plain) (he : p.isEnd source = false) :
    h.Keeps source [] kind (ps ++ [p]) := by
  cases h with
  | program | otherwise | caseClause => exact ⟨hk.1, rfl, forall_mem_concat hk.2.2 hp⟩
  | elseIf =>
    exact ⟨hk.1, rfl, forall_mem_concat hk.2.2 hp.1⟩
  | block b => exact ⟨hk.1, hk.2.add (.of_plain hp he)⟩

lemma Keeps.addCondition (hk : h.Keeps source [] kind ps) (hc : h.HasCondition)
    (hp : p.kind.isClause = false) (he : p.isEnd source = false) :
    h.Keeps source [] kind (ps ++ [p]) := by
  cases h with
  | block b => exact ⟨hk.1, hk.2.add ⟨he, hp, fun _ => hc⟩⟩
  | elseIf =>
    exact ⟨hk.1, rfl, forall_mem_concat hk.2.2 hp⟩
  | program | otherwise | caseClause => exact hc.elim

lemma role_eq_closes {c : Closing} {b : Block} (hr : h.role c = .closes b) :
    h = .block b ∧ c = .blockEnd := by
  unfold role at hr
  split at hr <;> simp_all

lemma role_eq_beginsClause {c : Closing} (hr : h.role c = .beginsClause) :
    ∃ b, h = .block b := by
  unfold role at hr
  split at hr <;> simp_all

/-- A closing word that leaves a clause means something to the block of the clause. -/
lemma Keeps.leaves (hk : h.Keeps source clauses kind ps) {b : Block}
    (hb : kind.clauseOf? = some b) {c : Closing} (hr : h.role c = .leaves) :
    (Holder.block b).role c = .closes b ∨
      (Holder.block b).role c = .beginsClause ∧ kind ≠ .elseClause := by
  cases h with
  | program | block => obtain ⟨rfl, -⟩ := hk; cases hb
  | elseIf | otherwise | caseClause =>
    obtain ⟨rfl, -⟩ := hk
    cases hb
    cases c <;> simp_all [role]

end Holder

namespace Expect

/-- Which node expects this, if it holds statements or will hold some. -/
def holder? : Expect → Option Holder
  | .statements h _ | .headerWords h | .condition h | .conditionRest h => some h
  | .functionHeader _ => some (.block .function)
  | .loopHeader _ _ => some (.block .forLoop)
  | .elseHead => some .otherwise
  | _ => none

lemma holder?_of_listed? {e : Expect} {s : Symbol} {h : Holder} {j : Bool}
    (hl : e.listed? s = some (h, j)) : e.holder? = some h := by
  unfold listed? at hl
  split at hl <;> first | split at hl | skip
  all_goals cases hl
  all_goals rfl

variable {source : Text} {gs : List Span} {clauses ps : List Part} {kind : NodeKind} {e : Expect}

lemma Fits.keeps (hf : e.Fits source gs clauses kind ps) {h : Holder} (he : e.holder? = some h) :
    h.Keeps source clauses kind ps := by
  cases e with
  | statements => cases he; exact hf
  | functionHeader | loopHeader | elseHead => cases he; obtain ⟨rfl, hf⟩ := hf; exact hf
  | headerWords | condition | conditionRest =>
    cases he
    obtain ⟨rfl, -, hf⟩ := hf
    exact hf
  | _ => cases he

lemma Fits.schema (hf : e.Fits source gs clauses kind ps) : Schema source gs kind ps := by
  cases he : e.holder? with
  | some h => exact (hf.keeps he).schema
  | none =>
    have hplain : ∀ {k : NodeKind}, kind = k → (∀ b : Block, k ≠ b.kind) → k ≠ .error →
        (∀ p ∈ ps, p.Plain) → Schema source gs kind ps :=
      fun hk hb he hps => hk ▸ .plain hb he hps
    cases e with
    | finalWords =>
      obtain ⟨-, ⟨b, rfl, hb⟩ | ⟨hk, hps⟩⟩ := hf
      · exact .block hb
      · exact hplain hk (Block.ne_kind rfl) (by simp) hps
    | strayWords | garbage => obtain ⟨-, rfl, hps⟩ := hf; exact .error hps
    | arguments | conjunctions | joined | stage | bar =>
      exact hplain hf.2.1 (Block.ne_kind rfl) (by simp) hf.2.2
    | connectors =>
      obtain ⟨-, rfl, hne, hps⟩ := hf
      exact .error (s := .connectors) ⟨ps, [], by simp, hne, hps, by simp, by simp⟩
    | nothing =>
      obtain ⟨-, ⟨hk, hps⟩ | ⟨rfl, hps⟩⟩ := hf
      · exact hplain hk (Block.ne_kind rfl) (by simp) hps
      · exact .error hps
    | _ => cases he

lemma Fits.holder?_of_clause (hf : e.Fits source gs clauses kind ps) {b : Block}
    (hb : kind.clauseOf? = some b) : ∃ h, e.holder? = some h := by
  cases e with
  | finalWords =>
    obtain ⟨-, ⟨b', rfl, -⟩ | ⟨rfl, -⟩⟩ := hf
    · rw [NodeKind.clauseOf?_kind] at hb
      cases hb
    · cases hb
  | strayWords | garbage | arguments | conjunctions | joined | stage | bar | connectors =>
    obtain ⟨-, rfl, -⟩ := hf
    cases hb
  | nothing => obtain ⟨-, ⟨rfl, -⟩ | ⟨rfl, -⟩⟩ := hf <;> cases hb
  | _ => exact ⟨_, rfl⟩

end Expect

/-- What a move leaves: the node taken alone, or waiting for the new node inside it. -/
def Move.Settles (source : Text) (gs : List Span) (m : Move) : Prop :=
  match m.inner? with
  | none => m.frame.Fits source gs []
  | some inner => m.frame.Awaits source inner ∧ inner.Fits source gs []

namespace Frame

variable {source : Text} {gs : List Span} {clauses : List Part} {f outer inner : Frame}
  {t : Terminal} {m : Move}

/-- A node that holds statements is complete only where a list of statements refuses the terminal.
-/
lemma lists_of_accept_eq_none {h : Holder} (he : f.expect.holder? = some h)
    (hn : f.accept t = none) : ∃ j, f.Lists t h j := by
  unfold Lists
  cases hl : f.expect.listed? t.symbol with
  | some hj =>
    obtain ⟨h', j⟩ := hj
    have hh := Expect.holder?_of_listed? hl
    rw [he] at hh
    cases hh
    exact ⟨j, rfl⟩
  | none =>
    exfalso
    unfold Expect.holder? at he
    unfold Expect.listed? at hl
    unfold accept at hn
    split at he <;> rename_i hx <;> simp only [hx] at hl hn
    case h_1 => cases hl
    case h_8 => cases he
    all_goals
      split at hn
      · cases hn
      · simp_all

/-- A clause is complete only before a closing word that means something to its block. -/
lemma Fits.leaves (hf : f.Fits source gs clauses) {b : Block} (hb : f.kind.clauseOf? = some b)
    (hn : f.accept t = none) :
    ∃ c, t.symbol.closing? = some c ∧ ((Holder.block b).role c = .closes b ∨
      (Holder.block b).role c = .beginsClause ∧ f.kind ≠ .elseClause) := by
  obtain ⟨h, he⟩ := Expect.Fits.holder?_of_clause hf hb
  obtain ⟨j, hl⟩ := lists_of_accept_eq_none he hn
  obtain ⟨c, hc, hr⟩ := leaves_of_accept_eq_none hl hn
  exact ⟨c, hc, (Expect.Fits.keeps hf he).leaves hb hr⟩

/-! ## Nodes that are closed -/

/-- What fits before the terminal: clauses are last in the node only if the terminal closes the
block or, unless the last branch of a conditional is among them, begins another clause. -/
def Ready (source : Text) (gs : List Span) (t : Terminal) (f : Frame) : Prop :=
  ∃ clauses, f.Fits source gs clauses ∧ (clauses = [] ∨ ∃ b c,
    f.expect = .statements (.block b) false ∧ t.symbol.closing? = some c ∧
      ((Holder.block b).role c = .closes b ∨
        (Holder.block b).role c = .beginsClause ∧ ∀ p ∈ clauses, p.kind ≠ .elseClause))

lemma part_phrase (f : Frame) : f.phrase.part = ⟨f.kind, f.field, none⟩ := rfl

lemma Awaits.add (gs : List Span) (ha : outer.Awaits source inner) :
    ∃ clauses, (outer.add inner.phrase).Fits source gs clauses ∧
      (inner.kind.clauseOf? = none → clauses = []) ∧
      ∀ b, inner.kind.clauseOf? = some b → outer.expect = .statements (.block b) false ∧
        ∀ p ∈ clauses, p.kind = .elseClause → inner.kind = .elseClause := by
  unfold Awaits at ha
  unfold Fits
  rw [parts_add, part_phrase]
  show ∃ clauses, outer.expect.Fits source gs clauses outer.kind _ ∧ _
  cases hk : inner.kind.clauseOf? with
  | some b =>
    rw [hk] at ha
    obtain ⟨he, hfield, hkind, clauses, hopened, helse⟩ := ha
    refine ⟨clauses ++ [⟨inner.kind, inner.field, none⟩], ?_, by simp, ?_⟩
    · rw [he]
      exact ⟨hkind, hopened.addClause hk hfield rfl helse⟩
    · rintro b' ⟨⟩
      exact ⟨he, forall_mem_concat (fun p hp hp' => absurd hp' (helse p hp)) id⟩
  | none =>
    rw [hk] at ha
    have hclause : inner.kind.isClause = false := NodeKind.clauseOf?_eq_none.1 hk
    refine ⟨[], ?_, fun _ => rfl, by simp⟩
    cases he : outer.expect with
    | statements h j =>
      rw [he] at ha
      obtain ⟨hfield, hkeeps⟩ := ha
      exact hkeeps.add ⟨hclause, by simp [hfield]⟩ (by simp [Part.isEnd, Part.isKeyword])
    | conditionRest h =>
      rw [he] at ha
      obtain ⟨-, hcond, hkeeps⟩ := ha
      exact ⟨rfl, hcond, hkeeps.addCondition hcond hclause (by simp [Part.isEnd, Part.isKeyword])⟩
    | nothing =>
      rw [he] at ha
      obtain ⟨hfield, ⟨hkind, hps⟩ | ⟨hkind, hne, hps⟩⟩ := ha
      · exact ⟨rfl, .inl ⟨hkind, forall_mem_concat hps ⟨hclause, by simp [hfield]⟩⟩⟩
      · exact ⟨rfl, .inr ⟨hkind, outer.parts, [_], rfl, hne, hps, by simp,
          fun p hp => List.mem_singleton.1 hp ▸ ⟨rfl, hclause, by simp [hfield]⟩⟩⟩
    | bar =>
      rw [he] at ha
      obtain ⟨hfield, hkind, hps⟩ := ha
      exact ⟨rfl, hkind, forall_mem_concat hps ⟨hclause, by simp [hfield]⟩⟩
    | _ => rw [he] at ha; exact ha.elim

lemma Ready.pop (ha : outer.Awaits source inner) (hi : inner.Ready source gs t)
    (hn : inner.accept t = none) : (outer.add inner.phrase).Ready source gs t := by
  obtain ⟨clauses', hfits', -⟩ := hi
  obtain ⟨clauses, hfits, hnil, hclause⟩ := ha.add gs
  refine ⟨clauses, hfits, ?_⟩
  cases hk : inner.kind.clauseOf? with
  | none => exact .inl (hnil hk)
  | some b =>
    obtain ⟨he, helse⟩ := hclause b hk
    obtain ⟨c, hc, hr⟩ := hfits'.leaves hk hn
    exact .inr ⟨b, c, he, hc, hr.imp_right fun ⟨hr, hne⟩ =>
      ⟨hr, fun p hp hp' => hne (helse p hp hp')⟩⟩

lemma Fits.ready (hf : f.Fits source gs []) (t : Terminal) : f.Ready source gs t :=
  ⟨[], hf, .inl rfl⟩

/-- In a list of statements no clause is last where the terminal means nothing to the block. -/
lemma Ready.keeps (hr : f.Ready source gs t) {h : Holder} {j : Bool} (hl : f.Lists t h j)
    (hc : ∀ c, t.symbol.closing? = some c → h.role c = .strays) :
    h.Keeps source [] f.kind f.parts := by
  have hh := Expect.holder?_of_listed? hl
  obtain ⟨clauses, hfits, rfl | ⟨b, c, he, hs, hrole⟩⟩ := hr
  · exact Expect.Fits.keeps hfits hh
  · rw [he] at hh
    cases hh
    rw [hc c hs] at hrole
    simp at hrole

lemma Ready.fits (hr : f.Ready source gs t) {e : Expect} (he : f.expect = e)
    (hne : ∀ b, e ≠ .statements (.block b) false) : e.Fits source gs [] f.kind f.parts := by
  subst he
  obtain ⟨clauses, hfits, rfl | ⟨b, c, he, -⟩⟩ := hr
  · exact hfits
  · exact absurd he (hne b)

/-! ## Moves -/

lemma wordKind_eq (w : Text) : wordKind w = .word ∨ wordKind w = .option := by
  unfold wordKind
  split <;> simp

lemma plain_leaf {kind : NodeKind} {field : Option Field} {span : Span}
    (hk : kind.isClause = false) (hf : field ≠ some .condition) :
    (Phrase.leaf kind field span).part.Plain :=
  ⟨hk, hf⟩

lemma plain_word (w : Text) {field : Option Field} {span : Span} (hf : field ≠ some .condition) :
    (Phrase.leaf (wordKind w) field span).part.Plain := by
  refine plain_leaf ?_ hf
  obtain h | h := wordKind_eq w <;> rw [h] <;> rfl

lemma plain_operator (t : Terminal) :
    ∀ p ∈ [(Phrase.leaf .operator none t.span).part], p.Plain :=
  List.forall_mem_singleton.2 (plain_leaf rfl (by simp))

lemma isClause_of_mem_leafKinds {s : Symbol} {kind : NodeKind} (h : kind ∈ s.leafKinds) :
    kind.isClause = false := by
  cases kind <;> cases s <;> simp [Symbol.leafKinds] at h <;> rfl

lemma arguments_add {ps : List Part} (h : ∀ p ∈ ps, p.IsArgument) (w : Text) {span : Span} :
    ∀ p ∈ ps ++ [(Phrase.leaf (wordKind w) (some .argument) span).part], p.IsArgument :=
  forall_mem_concat h ⟨rfl, rfl, wordKind_eq w⟩

lemma isEnd_leaf {kind : NodeKind} {field : Option Field} {span : Span} (hk : kind ≠ .keyword) :
    (Phrase.leaf kind field span).part.isEnd source = false :=
  Part.isEnd_eq_false_of_kind hk

lemma isEnd_word (w : Text) {field : Option Field} {span : Span} :
    (Phrase.leaf (wordKind w) field span).part.isEnd source = false := by
  refine isEnd_leaf ?_
  obtain h | h := wordKind_eq w <;> simp [h]

lemma take_parts (f : Frame) (kind : NodeKind) (field : Option Field) (t : Terminal)
    (e : Expect) :
    (f.take kind field t e).frame.parts = f.parts ++ [(Phrase.leaf kind field t.span).part] :=
  f.parts_add _

/-- A construct fits once its first word has been read, and it is no clause. -/
lemma construct_fits (gs : List Span) (ht : t.Reads source) {w : Text}
    (hs : t.symbol.starter? = some w) (field : Option Field) :
    (construct field t w).Fits source gs [] ∧ (construct field t w).kind.clauseOf? = none ∧
      (construct field t w).field = field := by
  obtain ⟨hs, -⟩ := Symbol.starter?_eq_some.1 hs
  unfold construct
  cases hb : Block.ofOpener? w with
  | some b =>
    refine ⟨?_, rfl, rfl⟩
    have hw : w = b.opener.toList := Terminal.ofOpener?_eq_some hb
    have hopened : b.Opened source [(Phrase.leaf .keyword none t.span).part] [] :=
      ⟨b.clauses_nil, by simp, _, [], rfl, ht.isKeyword (hw ▸ hs), rfl, by simp⟩
    cases b with
    | function | forLoop | beginBlock => first | exact ⟨rfl, rfl, hopened⟩ | exact ⟨rfl, hopened⟩
    | ifBlock => exact ⟨rfl, .inl rfl, rfl, hopened⟩
    | whileLoop => exact ⟨rfl, .inr rfl, rfl, hopened⟩
    | switchBlock => exact ⟨rfl, rfl, rfl, hopened⟩
  | none =>
    have hplain : ∀ p ∈ [(Phrase.leaf .keyword none t.span).part], p.Plain :=
      List.forall_mem_singleton.2 (plain_leaf rfl (by simp))
    simp only
    split
    · exact ⟨⟨rfl, .inr ⟨rfl, hplain⟩⟩, rfl, rfl⟩
    · split
      · exact ⟨⟨rfl, rfl, hplain⟩, rfl, rfl⟩
      · exact ⟨⟨rfl, rfl, List.forall_mem_singleton.2 (plain_leaf rfl (by simp))⟩, rfl, rfl⟩

lemma keeps_take {h : Holder} {kind : NodeKind} (hk : h.Keeps source [] kind f.parts)
    {leafKind : NodeKind} {field : Option Field} {e : Expect}
    (hplain : (Phrase.leaf leafKind field t.span).part.Plain)
    (hend : (Phrase.leaf leafKind field t.span).part.isEnd source = false) :
    h.Keeps source [] kind (f.take leafKind field t e).frame.parts := by
  rw [take_parts]
  exact hk.add hplain hend

lemma plain_take (h : ∀ p ∈ f.parts, p.Plain) {leafKind : NodeKind} {field : Option Field}
    {e : Expect} (hplain : (Phrase.leaf leafKind field t.span).part.Plain) :
    ∀ p ∈ (f.take leafKind field t e).frame.parts, p.Plain := by
  rw [take_parts]
  exact forall_mem_concat h hplain

lemma settles_statement {h : Holder} {j : Bool} (hk : h.Keeps source [] f.kind f.parts)
    (hi : inner.Fits source gs []) (hclause : inner.kind.clauseOf? = none)
    (hfield : inner.field = none) : (f.enter (.statements h j) inner).Settles source gs := by
  refine ⟨?_, hi⟩
  unfold Awaits
  rw [hclause, hfield]
  exact ⟨rfl, hk⟩

lemma settles_condition {h : Holder} (hk : h.Keeps source [] f.kind f.parts)
    (hcond : h.HasCondition) (hi : inner.Fits source gs []) (hclause : inner.kind.clauseOf? = none)
    (hfield : inner.field = some .condition) :
    (f.enter (.conditionRest h) inner).Settles source gs := by
  refine ⟨?_, hi⟩
  unfold Awaits
  rw [hclause, hfield]
  exact ⟨rfl, hcond, hk⟩

lemma settles_operand (hk : (f.kind = .conditionalExecution ∧ ∀ p ∈ f.parts, p.Plain) ∨
      f.kind = .error ∧ f.parts ≠ [] ∧ ∀ p ∈ f.parts, p.IsOperator)
    (hi : inner.Fits source gs []) (hclause : inner.kind.clauseOf? = none)
    (hfield : inner.field = none) : (f.enter .nothing inner).Settles source gs := by
  refine ⟨?_, hi⟩
  unfold Awaits
  rw [hclause, hfield]
  exact ⟨rfl, hk⟩

/-- A block waits for its next clause, unless it has its last branch already. -/
lemma settles_clause {b : Block} {clauses : List Part} (hk : f.kind = .error)
    (ho : b.Opened source f.parts clauses) (helse : ∀ p ∈ clauses, p.kind ≠ .elseClause)
    {c : Closing} (hc : (Holder.block b).role c = .beginsClause) :
    (f.enter (.statements (.block b) false) (clause c t)).Settles source gs := by
  have hplain : ∀ p ∈ [(Phrase.leaf .keyword none t.span).part], p.Plain :=
    List.forall_mem_singleton.2 (plain_leaf rfl (by simp))
  have hawait : ∀ {kind : NodeKind} {e : Expect}, kind.clauseOf? = some b →
      (f.enter (.statements (.block b) false) (.opened kind none .keyword none t e)).frame.Awaits
        source (.opened kind none .keyword none t e) := by
    intro kind e hkind
    show Expect.Awaits source f.kind f.parts none kind.clauseOf? _
    rw [hkind]
    exact ⟨rfl, rfl, hk, clauses, ho, helse⟩
  cases c with
  | blockEnd => cases hc
  | elseBranch =>
    cases b with
    | ifBlock => exact ⟨hawait rfl, rfl, rfl, rfl, hplain⟩
    | _ => cases hc
  | nextCase =>
    cases b with
    | switchBlock => exact ⟨hawait rfl, rfl, trivial, rfl, rfl, hplain⟩
    | _ => cases hc

/-- The end of a block is the last part of it but for the words behind. -/
lemma Ready.settles_close (hr : f.Ready source gs t) (ht : t.Reads source) {h : Holder} {j : Bool}
    {c : Closing} {b : Block} (hl : f.Lists t h j) (hs : t.symbol.closing? = some c)
    (hrole : h.role c = .closes b) :
    ({ f with kind := b.kind }.take .keyword none t .finalWords).Settles source gs := by
  obtain ⟨rfl, rfl⟩ := Holder.role_eq_closes hrole
  obtain ⟨clauses, hfits, -⟩ := hr
  obtain ⟨-, hopened⟩ := Expect.Fits.keeps hfits (Expect.holder?_of_listed? hl)
  refine ⟨rfl, .inl ⟨b, rfl, ?_⟩⟩
  rw [take_parts]
  exact ⟨f.parts, _, [], rfl, ⟨clauses, hopened⟩,
    ht.isKeyword (Terminal.closing?_eq_some hs), rfl, by simp⟩

lemma Ready.settles_clause (hr : f.Ready source gs t) {h : Holder} {j : Bool} {c : Closing}
    (hl : f.Lists t h j) (hs : t.symbol.closing? = some c) (hrole : h.role c = .beginsClause) :
    (f.enter (.statements h false) (Frame.clause c t)).Settles source gs := by
  obtain ⟨b, rfl⟩ := Holder.role_eq_beginsClause hrole
  obtain ⟨clauses, hfits, hlast⟩ := hr
  have hh := Expect.holder?_of_listed? hl
  obtain ⟨hkind, hopened⟩ := Expect.Fits.keeps hfits hh
  refine Frame.settles_clause hkind hopened ?_ hrole
  obtain rfl | ⟨b', c', he, hs', hclosing⟩ := hlast
  · simp
  · -- the word is the one before which the clauses were complete
    rw [he] at hh
    cases hh
    rw [hs] at hs'
    cases hs'
    rw [hrole] at hclosing
    simpa using hclosing

lemma settles_finalWord (hf : Expect.finalWords.Fits source gs [] f.kind f.parts) (w : Text) :
    (f.take (wordKind w) (some .argument) t .finalWords).Settles source gs := by
  obtain ⟨-, ⟨b, hkind, front, close, args, hparts, hfront, hclose, hfield, hargs⟩ |
    ⟨hkind, hps⟩⟩ := hf
  · refine ⟨rfl, .inl ⟨b, hkind, ?_⟩⟩
    rw [take_parts, hparts, List.append_assoc, List.cons_append]
    exact ⟨front, close, _, rfl, hfront, hclose, hfield, arguments_add hargs w⟩
  · exact ⟨rfl, .inr ⟨hkind, plain_take hps (plain_word w (by simp))⟩⟩

lemma settles_strayWord (hf : Expect.strayWords.Fits source gs [] f.kind f.parts) (w : Text) :
    (f.take (wordKind w) (some .argument) t .strayWords).Settles source gs := by
  obtain ⟨-, hkind, c, keyword, args, hparts, hkeyword, hfield, hargs⟩ := hf
  refine ⟨rfl, hkind, ?_⟩
  rw [take_parts, hparts, List.cons_append]
  exact ⟨c, keyword, _, rfl, hkeyword, hfield, arguments_add hargs w⟩

lemma settles_garbage (hf : Expect.garbage.Fits source gs [] f.kind f.parts) :
    (f.take .word none t .garbage).Settles source gs := by
  obtain ⟨-, hkind, first, words, hparts, hfirst, hwords⟩ := hf
  have hword : (Phrase.leaf .word none t.span).part.IsWord := ⟨rfl, rfl, rfl⟩
  have hwords' := forall_mem_concat hwords hword
  refine ⟨rfl, hkind, ?_⟩
  rw [take_parts]
  rw [hparts, List.cons_append] at hwords' ⊢
  exact ⟨first, _, rfl, hfirst, hwords'⟩

theorem Ready.move (hr : f.Ready source gs t) (ht : t.Reads source) (hg : t.Known gs)
    (hm : f.Rule t m) : m.Settles source gs := by
  -- neither the first word of a statement nor a connector closes anything
  have hstart : ∀ {w c}, t.symbol.starter? = some w → t.symbol.closing? ≠ some c := by
    intro w c hs hc
    obtain ⟨hs, hw⟩ := Symbol.starter?_eq_some.1 hs
    rw [hs, Symbol.closing?, hw] at hc
    cases hc
  have hconnector : ∀ {c}, t.symbol.isConnector = true → t.symbol.closing? ≠ some c := by
    intro c hs hc
    rw [Terminal.closing?_eq_some hc] at hs
    cases hs
  cases hm with
  | terminator hl hs =>
    have hkeeps := hr.keeps hl fun c hc => by
      obtain hs | hs := hs <;> simp [hs, Symbol.closing?] at hc
    exact keeps_take hkeeps (plain_leaf rfl (by simp)) (isEnd_leaf (by simp))
  | comment hl hs =>
    have hkeeps := hr.keeps hl fun c hc => by simp [hs, Symbol.closing?] at hc
    exact keeps_take hkeeps (plain_leaf rfl (by simp)) (isEnd_leaf (by simp))
  | join hl hs =>
    have hkeeps := hr.keeps hl fun c hc => absurd hc (hconnector hs)
    exact settles_statement hkeeps ⟨rfl, rfl, plain_operator t⟩ rfl rfl
  | dangle hl hs =>
    have hkeeps := hr.keeps hl fun c hc => by
      obtain hs | ⟨hs, -⟩ := hs
      · simp [hs, Symbol.closing?] at hc
      · exact absurd hc (hconnector hs)
    refine settles_statement hkeeps ⟨rfl, rfl, List.cons_ne_nil _ _, ?_⟩ rfl rfl
    exact List.forall_mem_singleton.2 ⟨rfl, rfl, rfl⟩
  | garble hl hs =>
    have hkeeps := hr.keeps hl fun c hc => by simp [hs, Symbol.closing?] at hc
    refine settles_statement hkeeps ⟨rfl, rfl, _, [], rfl, ⟨t.span, hg hs, rfl⟩, ?_⟩ rfl rfl
    exact List.forall_mem_singleton.2 ⟨rfl, rfl, rfl⟩
  | begin hl hs =>
    have hkeeps := hr.keeps hl fun c hc => absurd hc (hstart hs)
    obtain ⟨hfits, hclause, hfield⟩ := construct_fits gs ht hs none
    exact settles_statement hkeeps hfits hclause hfield
  | close hl hs hrole => exact hr.settles_close ht hl hs hrole
  | clause hl hs hrole => exact hr.settles_clause hl hs hrole
  | @stray _ _ c hl hs hrole =>
    have hkeeps := hr.keeps hl fun c' hc => by
      rw [hs] at hc
      cases hc
      exact hrole
    refine settles_statement hkeeps ⟨rfl, rfl, c, _, [], rfl, ?_, rfl, by simp⟩ rfl rfl
    exact ht.isKeyword (Terminal.closing?_eq_some hs)
  | functionName he hs | loopName he hs =>
    obtain ⟨-, hkeeps⟩ := hr.fits he (by simp)
    exact ⟨rfl, keeps_take hkeeps (plain_leaf rfl (by simp)) (isEnd_leaf (by simp))⟩
  | @functionOption _ w he hs | @loopItem _ w he hs =>
    obtain ⟨-, hkeeps⟩ := hr.fits he (by simp)
    exact ⟨rfl, keeps_take hkeeps (plain_word w (by simp)) (isEnd_word w)⟩
  | loopIn he hs =>
    obtain ⟨-, hkeeps⟩ := hr.fits he (by simp)
    refine ⟨rfl, keeps_take hkeeps (plain_leaf rfl (by simp)) ?_⟩
    exact Part.isEnd_eq_false_of_isKeyword (ht.isKeyword hs) (by decide)
  | @headerWord _ w he hs =>
    obtain ⟨-, hwords, hkeeps⟩ := hr.fits he (by simp)
    exact ⟨rfl, hwords, keeps_take hkeeps (plain_word w (by simp)) (isEnd_word w)⟩
  | condition he hs =>
    obtain ⟨-, hcond, hkeeps⟩ := hr.fits he (by simp)
    obtain ⟨hfits, hclause, hfield⟩ := construct_fits gs ht hs (some .condition)
    exact settles_condition hkeeps hcond hfits hclause hfield
  | conditionJoin he hs =>
    obtain ⟨-, hcond, hkeeps⟩ := hr.fits he (by simp)
    exact settles_condition hkeeps hcond ⟨rfl, rfl, plain_operator t⟩ rfl rfl
  | elseIf he hs =>
    obtain ⟨-, -, -, hps⟩ := hr.fits he (by simp)
    refine ⟨rfl, trivial, rfl, rfl, fun p hp => ?_⟩
    rw [take_parts] at hp
    exact (forall_mem_concat hps (plain_leaf rfl (by simp)) p hp).1
  | @finalWord w he hs => exact settles_finalWord (hr.fits he (by simp)) w
  | @strayWord w he hs => exact settles_strayWord (hr.fits he (by simp)) w
  | @argument _ scan w he hs =>
    obtain ⟨-, hkind, hps⟩ := hr.fits he (by simp)
    refine ⟨rfl, hkind, plain_take hps (plain_leaf ?_ (by simp))⟩
    exact isClause_of_mem_leafKinds (scan_mem scan w)
  | pipe he hs =>
    obtain ⟨-, hkind, hps⟩ := hr.fits he (by simp)
    refine ⟨rfl, rfl, ?_⟩
    simp [piped, parts, Phrase.part, Part.Plain, NodeKind.isClause]
  | conjunction he hs | lineBreak he hs | lineComment he hs | stageBreak he hs =>
    obtain ⟨-, hkind, hps⟩ := hr.fits he (by simp)
    exact ⟨rfl, hkind, plain_take hps (plain_leaf rfl (by simp))⟩
  | conjoined he hs | joined he hs =>
    obtain ⟨-, hkind, hps⟩ := hr.fits he (by simp)
    obtain ⟨hfits, hclause, hfield⟩ := construct_fits gs ht hs none
    exact settles_operand (.inl ⟨hkind, hps⟩) hfits hclause hfield
  | connector he hs =>
    obtain ⟨-, hkind, hne, hps⟩ := hr.fits he (by simp)
    refine ⟨rfl, hkind, ?_⟩
    rw [take_parts]
    exact ⟨List.append_ne_nil_of_left_ne_nil hne _, forall_mem_concat hps ⟨rfl, rfl, rfl⟩⟩
  | connected he hs =>
    obtain ⟨-, hkind, hps⟩ := hr.fits he (by simp)
    obtain ⟨hfits, hclause, hfield⟩ := construct_fits gs ht hs none
    exact settles_operand (.inr ⟨hkind, hps⟩) hfits hclause hfield
  | garbage he hs => exact settles_garbage (hr.fits he (by simp))
  | bar he hs =>
    obtain ⟨-, hkind, hps⟩ : Expect.stage.Fits source gs [] f.kind f.parts := by
      obtain he | he := he
      · exact hr.fits he (by simp)
      · exact hr.fits (e := .bar) he (by simp)
    exact ⟨rfl, hkind, plain_take hps (plain_leaf rfl (by simp))⟩
  | @staged w he hs =>
    obtain ⟨-, hkind, hps⟩ := hr.fits he (by simp)
    have hcommand : ∀ p ∈ (command none true t w).parts, p.Plain :=
      List.forall_mem_singleton.2 (plain_leaf rfl (by simp))
    exact ⟨⟨rfl, hkind, hps⟩, rfl, rfl, hcommand⟩

/-- A node keeps its role, and a clause stays a clause of its block. -/
lemma Ready.clauseOf?_move (hr : f.Ready source gs t) (hm : f.Rule t m) :
    m.frame.field = f.field ∧ m.frame.kind.clauseOf? = f.kind.clauseOf? := by
  obtain ⟨clauses, hfits, -⟩ := hr
  cases hm with
  | @close h j c b hl hs hrole =>
    obtain ⟨rfl, rfl⟩ := Holder.role_eq_closes hrole
    obtain ⟨hkind, -⟩ := Expect.Fits.keeps hfits (Expect.holder?_of_listed? hl)
    exact ⟨rfl, by rw [hkind]; exact NodeKind.clauseOf?_kind b⟩
  | elseIf he hs =>
    obtain ⟨hkind, -⟩ := Expect.Fits.keeps hfits (by rw [he]; rfl)
    exact ⟨rfl, by rw [hkind]; rfl⟩
  | pipe he hs =>
    rw [Fits, he] at hfits
    exact ⟨rfl, by rw [hfits.2.1]; rfl⟩
  | _ => exact ⟨rfl, rfl⟩

/-- The phrases in the node have the shapes of their kinds. -/
def Shaped (source : Text) (gs : List Span) (f : Frame) : Prop :=
  ∀ p ∈ f.phrases, p.Shaped source gs

lemma Fits.phrase_shaped (hf : f.Fits source gs clauses) (hs : f.Shaped source gs) :
    f.phrase.Shaped source gs :=
  .node (Expect.Fits.schema hf) fun p hp => hs p (List.mem_reverse.1 hp)

lemma Shaped.add (hs : f.Shaped source gs) {p : Phrase} (hp : p.Shaped source gs) :
    (f.add p).Shaped source gs :=
  List.forall_mem_cons.2 ⟨hp, hs⟩

lemma Ready.shaped_move (hr : f.Ready source gs t) (hs : f.Shaped source gs) (hm : f.Rule t m) :
    m.frame.Shaped source gs ∧ ∀ inner, m.inner? = some inner → inner.Shaped source gs := by
  have hleaf : ∀ {kind field}, kind ∈ t.symbol.leafKinds →
      (Phrase.leaf kind field t.span).Shaped source gs :=
    fun hk => Phrase.shaped_leaf_of_mem source gs hk _ _
  cases hm.effect with
  | take hk => exact ⟨hs.add (hleaf hk), fun _ h => by cases h⟩
  | enter hk =>
    refine ⟨hs, fun inner h => ?_⟩
    cases h
    exact List.forall_mem_singleton.2 (hleaf hk)
  | pipe he hsym =>
    -- the command before the bar is complete
    obtain ⟨-, hkind, -⟩ := hr.fits he (by simp)
    obtain ⟨clauses, hfits, -⟩ := hr
    have hcommand := hfits.phrase_shaped hs
    rw [phrase, hkind] at hcommand
    obtain hcommand | ⟨hschema, hshaped⟩ := hcommand
    exact ⟨List.forall_mem_cons.2 ⟨hleaf (by simp [hsym, Symbol.leafKinds]),
      List.forall_mem_singleton.2 (.node hschema hshaped)⟩, fun _ h => by cases h⟩

end Frame

/-! ## Runs -/

namespace Stack

variable {source : Text} {gs : List Span} {t : Terminal}

/-- Every open node holds well shaped phrases, and each waits for the one inside it. -/
def Chained (source : Text) (gs : List Span) : Frame → List Frame → Prop
  | top, [] => top.Shaped source gs
  | top, next :: below =>
    top.Shaped source gs ∧ next.Awaits source top ∧ Chained source gs next below

lemma Chained.shaped {top : Frame} {below : List Frame} (h : Chained source gs top below) :
    top.Shaped source gs := by
  cases below with
  | nil => exact h
  | cons next below => exact h.1

/-- Of the innermost node a chain sees the phrases, the role, and whether it is a clause. -/
lemma Chained.change {top top' : Frame} {below : List Frame} (h : Chained source gs top below)
    (hs : top'.Shaped source gs)
    (hfield : top'.field = top.field ∧ top'.kind.clauseOf? = top.kind.clauseOf?) :
    Chained source gs top' below := by
  cases below with
  | nil => exact hs
  | cons next below =>
    refine ⟨hs, ?_, h.2.2⟩
    unfold Frame.Awaits
    rw [hfield.1, hfield.2]
    exact h.2.1

lemma Chained.pop {top next : Frame} {below : List Frame} {clauses : List Part}
    (h : Chained source gs top (next :: below)) (hf : top.Fits source gs clauses) :
    Chained source gs (next.add top.phrase) below :=
  h.2.2.change (h.2.2.shaped.add (hf.phrase_shaped h.1)) ⟨rfl, rfl⟩

lemma Chained.ofMove {top : Frame} {below : List Frame} {m : Move}
    (h : Chained source gs top below) (hr : top.Ready source gs t) (ht : t.Reads source)
    (hg : t.Known gs) (hm : top.Rule t m) :
    (ofMove m below).top.Fits source gs [] ∧
      Chained source gs (ofMove m below).top (ofMove m below).below := by
  obtain ⟨hshaped, hinner⟩ := hr.shaped_move h.shaped hm
  have hframe := h.change hshaped (hr.clauseOf?_move hm)
  have hsettles := hr.move ht hg hm
  unfold Move.Settles at hsettles
  unfold Stack.ofMove
  cases hi : m.inner? with
  | none =>
    rw [hi] at hsettles
    exact ⟨hsettles, hframe⟩
  | some inner =>
    rw [hi] at hsettles
    exact ⟨hsettles.2, hinner inner hi, hsettles.1, hframe⟩

/-- Every open node is as it should be after a whole terminal. -/
def WellShaped (source : Text) (gs : List Span) (s : Stack) : Prop :=
  s.top.Fits source gs [] ∧ Chained source gs s.top s.below

lemma wellShaped_initial : WellShaped source gs .initial :=
  ⟨⟨rfl, rfl, by simp [Stack.initial, Frame.parts]⟩, by simp [Stack.initial, Chained, Frame.Shaped]⟩

lemma WellShaped.step {s : Stack} (hs : s.Grounded) (h : s.WellShaped source gs)
    (ht : t.Reads source) (hg : t.Known gs) : (s.step t).WellShaped source gs := by
  refine step_induction
    (P := fun top below => top.Ready source gs t ∧ Chained source gs top below)
    (Q := WellShaped source gs) hs ⟨h.1.ready t, h.2⟩ ?_ ?_
  · rintro top next below ⟨hr, hc⟩ hn
    obtain ⟨clauses, hfits, -⟩ := id hr
    exact ⟨Frame.Ready.pop hc.2.1 hr hn, hc.pop hfits⟩
  · rintro top below m ⟨hr, hc⟩ hm
    exact hc.ofMove hr ht hg hm

lemma wellShaped_foldl {ts : List Terminal} (hts : ∀ t ∈ ts, t.Reads source ∧ t.Known gs)
    {s : Stack} (hs : s.Grounded) (h : s.WellShaped source gs) :
    (ts.foldl Stack.step s).WellShaped source gs := by
  induction ts generalizing s with
  | nil => exact h
  | cons t ts ih =>
    obtain ⟨ht, hg⟩ := hts t (by simp)
    exact ih (fun t ht => hts t (by simp [ht])) (hs.step t) (h.step hs ht hg)

lemma Chained.close {below : List Frame} {top : Frame} {clauses : List Part}
    (hf : top.Fits source gs clauses) (h : Chained source gs top below) :
    (Stack.close top below).Shaped source gs := by
  induction below generalizing top clauses with
  | nil => exact hf.phrase_shaped h
  | cons next below ih =>
    obtain ⟨clauses', hf', -⟩ := h.2.1.add gs
    exact ih hf' (h.pop hf)

end Stack

/-- The phrase of terminals that are read from a source is well shaped. -/
theorem parseTerminals_shaped {source : Text} {gs : List Span} {ts : List Terminal}
    (hts : ∀ t ∈ ts, t.Reads source ∧ t.Known gs) : (parseTerminals ts).Shaped source gs := by
  obtain ⟨hf, hc⟩ := Stack.wellShaped_foldl hts Stack.grounded_initial Stack.wellShaped_initial
  exact hc.close hf

/-! ## Trees -/

lemma Phrase.part_plant {p : Phrase} (hp : p.Full) (id cursor : Nat) :
    (p.plant id cursor).part = p.part := by
  cases hp with
  | leaf => rfl
  | node hne hfull =>
    obtain ⟨p, ps, rfl⟩ := List.exists_cons_of_ne_nil hne
    rfl

lemma map_part_plantAll {ps : List Phrase} {id cursor : Nat} (h : ∀ p ∈ ps, p.Full) :
    (plantAll id cursor ps).map Node.part = ps.map Phrase.part := by
  induction ps generalizing id cursor with
  | nil => rfl
  | cons p ps ih =>
    rw [plantAll, List.map_cons, List.map_cons, Phrase.part_plant (h p List.mem_cons_self),
      ih fun q hq => h q (List.mem_cons_of_mem p hq)]

mutual

theorem Phrase.Shaped.schema_plant {source : Text} {gs : List Span} :
    ∀ {p : Phrase} (id cursor : Nat), p.Shaped source gs → p.Full →
      ∀ n ∈ (p.plant id cursor).preorder, Schema source gs n.kind n.parts
  | .leaf kind field span, id, cursor, .leaf hb he, _, n, hn => by
    rw [List.mem_singleton.1 hn]
    exact .plain hb he (by simp [Node.parts])
  | .node kind field children, id, cursor, .node hschema hshaped, .node hne hfull, n, hn => by
    rcases List.mem_cons.1 hn with rfl | hn
    · show Schema source gs kind ((plantAll (id + 1) cursor children).map Node.part)
      rw [map_part_plantAll hfull]
      exact hschema
    · exact schema_plantAll (id + 1) cursor hshaped hfull n hn

theorem schema_plantAll {source : Text} {gs : List Span} :
    ∀ {ps : List Phrase} (id cursor : Nat), (∀ p ∈ ps, p.Shaped source gs) → (∀ p ∈ ps, p.Full) →
      ∀ n ∈ preorderAll (plantAll id cursor ps), Schema source gs n.kind n.parts
  | p :: ps, id, cursor, hshaped, hfull, n, hn => by
    rcases List.mem_append.1 hn with hn | hn
    · exact (hshaped p (by simp)).schema_plant id cursor (hfull p (by simp)) n hn
    · exact schema_plantAll _ _ (fun q hq => hshaped q (by simp [hq]))
        (fun q hq => hfull q (by simp [hq])) n hn

end

/-- The places of garbage in a source, blocks behind the nesting limit among them. -/
def garbagePlaces (source : Text) : List Span :=
  ((limitNesting (terminals source)).filter fun t => t.symbol == .garbage).map Terminal.span

lemma known_of_mem_limited {source : Text} {t : Terminal} (ht : t ∈ limited source) :
    t.Reads source ∧ t.Known (garbagePlaces source) := by
  refine ⟨reads_of_mem_limited ht, fun hg => ?_⟩
  exact List.mem_map.2 ⟨t, List.mem_filter.2 ⟨ht, by simp [hg]⟩, rfl⟩

/-- Every source parses into a tree all of whose nodes are well shaped. -/
theorem parse_wellShaped (source : Text) :
    ∃ root, parse source = .ok ⟨source, [root]⟩ ∧ root.kind = .program ∧ root.field = none ∧
      ∀ n ∈ root.preorder, WellShaped source (garbagePlaces source) n.kind n.parts := by
  obtain ⟨children, heq, hfull, -⟩ := parseTerminals_leaves (limited source)
  have hshaped := parseTerminals_shaped fun t (ht : t ∈ limited source) => known_of_mem_limited ht
  have hroot : rootOf source = (Phrase.node .program none children).plant 0 0 := by
    rw [rootOf, heq]
  rw [heq] at hshaped
  obtain hshaped | ⟨hschema, hshaped⟩ := hshaped
  refine ⟨rootOf source, parse_eq source, by rw [hroot]; rfl, by rw [hroot]; rfl, ?_⟩
  intro n hn
  rw [hroot] at hn
  rcases List.mem_cons.1 hn with rfl | hn
  · refine Schema.wellShaped ?_
    show Schema source _ .program ((plantAll 1 0 children).map Node.part)
    rw [map_part_plantAll hfull]
    exact hschema
  · exact (schema_plantAll 1 0 hshaped hfull n hn).wellShaped

end FishScript
