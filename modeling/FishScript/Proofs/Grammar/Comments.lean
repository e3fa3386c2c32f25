/-
# Comments and the grammar

To the grammar a comment is one more end of a line, right before the end of its line. Only the node
of a pipeline that waits for its next command knows the end of a line and not a comment. So unless a
comment stands behind a bar, the phrase of the terminals without the comments is the phrase of the
terminals, without its comments (`matches_parseTerminals`).
-/
import Mathlib
import FishScript.Proofs.Grammar.Ends
import FishScript.Proofs.Token.Lines

namespace FishScript

/-! ## Terminals without comments -/

/-- The symbols of the terminals that are no comments. -/
def visible (ts : List Terminal) : List Symbol :=
  (ts.filter (·.symbol != .comment)).map Terminal.symbol

/-- A comment stands behind a bar, line breaks apart; `bar` says that a bar stands before the
symbols. -/
def commentBehindBar : Bool → List Symbol → Bool
  | _, [] => false
  | bar, .comment :: ss => bar || commentBehindBar false ss
  | _, .pipe :: ss => commentBehindBar true ss
  | bar, .newline :: ss => commentBehindBar bar ss
  | _, _ :: ss => commentBehindBar false ss

section Visible

variable {t : Terminal} {ts : List Terminal} {s : Symbol} {ss : List Symbol} {bar : Bool}

lemma visible_cons_comment (h : t.symbol = .comment) (ts : List Terminal) :
    visible (t :: ts) = visible ts := by
  rw [visible, List.filter_cons_of_neg (by simp [h]), visible]

lemma visible_cons (h : t.symbol ≠ .comment) (ts : List Terminal) :
    visible (t :: ts) = t.symbol :: visible ts := by
  rw [visible, List.filter_cons_of_pos (by simpa using h), List.map_cons, visible]

/-- Whether a bar stands before the symbols matters only for the worse. -/
lemma commentBehindBar_false (h : commentBehindBar bar ss = false) :
    commentBehindBar false ss = false := by
  induction ss with
  | nil => rfl
  | cons s ss ih =>
    cases s with
    | comment => exact (Bool.or_eq_false_iff.1 h).2
    | newline => exact ih h
    | _ => exact h

lemma commentBehindBar_cons (bar : Bool) (s : Symbol) (ss : List Symbol) :
    commentBehindBar bar (s :: ss) =
      (s == .comment && bar || commentBehindBar (s == .pipe || s == .newline && bar) ss) := by
  cases s <;> rfl

end Visible

/-! ## The nesting limit -/

section Limit

variable {ts ts' : List Terminal} {scan scan' : NestingScan} {depth : Nat}
  {fold? fold?' : Option Fold}

/-- At the end of a line all scans do the same, and know the same behind it. -/
lemma NestingScan.eq_of_newline {s : Symbol} (h : scan = scan' ∨ s = .newline) :
    scan.effect s = scan'.effect s ∧ scan.next s = scan'.next s := by
  rcases h with rfl | rfl
  · exact ⟨rfl, rfl⟩
  · exact ⟨rfl, rfl⟩

/-- The nesting limit leaves a comment where it is, or takes it into the block that is being
folded. -/
lemma visible_limitFrom_comment (scan : NestingScan) (depth : Nat) {t : Terminal}
    (ts : List Terminal) (hcomment : t.symbol = .comment) (hopen : ∀ f ∈ fold?, f.depth ≠ 0) :
    ∃ rest? : Option Fold, rest?.map Fold.depth = fold?.map Fold.depth ∧
      (∀ f ∈ rest?, f.depth ≠ 0) ∧ visible (limitFrom scan depth fold? (t :: ts)) =
        visible (limitFrom (scan.next t.symbol) depth rest? ts) := by
  have heffect : scan.effect t.symbol = .same := by rw [hcomment]; rfl
  cases fold? with
  | none =>
    refine ⟨none, rfl, by simp, ?_⟩
    simp only [limitFrom, heffect]
    exact visible_cons_comment hcomment _
  | some f =>
    have hdepth := hopen f rfl
    refine ⟨some ⟨f.depth, f.start, t.span.stop⟩, rfl, ?_, ?_⟩
    · rintro _ ⟨⟩
      exact hdepth
    · simp only [limitFrom, heffect, Fold.depthAfter]
      rw [if_neg hdepth]

/-- The nesting limit does without the comments what it does with them. It may have the scan behind
a comment, as long as the end of the line is still to come. -/
lemma visible_limitFrom (hlines : ts.IsChain EndsComment)
    (hts : visible ts = ts'.map Terminal.symbol)
    (hscan : scan = scan' ∨ ∀ t ∈ ts.head?, t.symbol = .newline)
    (hfold : fold?.map Fold.depth = fold?'.map Fold.depth) (hopen : ∀ f ∈ fold?, f.depth ≠ 0) :
    visible (limitFrom scan depth fold? ts) =
      (limitFrom scan' depth fold?' ts').map Terminal.symbol := by
  induction ts generalizing ts' scan scan' depth fold? fold?' with
  | nil =>
    obtain rfl := List.map_eq_nil_iff.1 hts.symm
    cases fold? <;> cases fold?' <;> first | rfl | cases hfold
  | cons t ts ih =>
    obtain ⟨hnext, hlines⟩ := List.isChain_cons.1 hlines
    by_cases hcomment : t.symbol = .comment
    · rw [visible_cons_comment hcomment] at hts
      have hline : ∀ u ∈ ts.head?, u.symbol = .newline := fun u hu => hnext u hu hcomment
      obtain ⟨rest?, hdepth, hrest, hvisible⟩ :=
        visible_limitFrom_comment scan depth ts hcomment hopen
      rw [hvisible]
      exact ih hlines hts (.inr hline) (hdepth.trans hfold) hrest
    · rw [visible_cons hcomment] at hts
      obtain ⟨t', ts', rfl, ht', hts⟩ := List.map_eq_cons_iff.1 hts.symm
      obtain ⟨heffect, hafter⟩ :=
        NestingScan.eq_of_newline (hscan.imp_right fun hline => hline t rfl)
      have hgo {depth : Nat} {fold? fold?' : Option Fold}
          (hfold : fold?.map Fold.depth = fold?'.map Fold.depth)
          (hopen : ∀ f ∈ fold?, f.depth ≠ 0) :
          visible (limitFrom (scan.next t.symbol) depth fold? ts) =
            (limitFrom (scan'.next t'.symbol) depth fold?' ts').map Terminal.symbol :=
        ih hlines hts.symm (.inl (by rw [ht', hafter])) hfold hopen
      have hkeep (depth : Nat) : visible (t :: limitFrom (scan.next t.symbol) depth none ts) =
          (t' :: limitFrom (scan'.next t'.symbol) depth none ts').map Terminal.symbol := by
        rw [visible_cons hcomment, List.map_cons, hgo rfl (by simp), ht']
      cases fold? with
      | none =>
        obtain rfl := Option.map_eq_none_iff.1 hfold.symm
        simp only [limitFrom, ht', heffect] at hgo hkeep ⊢
        cases scan'.effect t.symbol with
        | opens =>
          simp only
          split
          · exact hgo rfl (by rintro _ ⟨⟩; exact Nat.one_ne_zero)
          · exact hkeep _
        | closes => exact hkeep _
        | same => exact hkeep _
      | some f =>
        obtain ⟨f', rfl, hdepth⟩ := Option.map_eq_some_iff.1 hfold.symm
        simp only [limitFrom, ht', heffect] at hgo ⊢
        have hdepths : f'.depthAfter (scan'.effect t.symbol) =
            f.depthAfter (scan'.effect t.symbol) := by
          cases scan'.effect t.symbol <;> simp [Fold.depthAfter, hdepth]
        rw [hdepths]
        split
        · rw [visible_cons (by simp [Fold.terminal]), List.map_cons, hgo rfl (by simp)]
          rfl
        · refine hgo rfl ?_
          rintro _ ⟨⟩
          assumption

/-- The nesting limit puts no comment behind a bar. A bar before a block that is being folded does
not matter. -/
lemma commentBehindBar_limitFrom {bar bar' : Bool}
    (h : commentBehindBar bar (ts.map Terminal.symbol) = false)
    (hbar : bar' = bar ∨ fold?.isSome) :
    commentBehindBar bar' ((limitFrom scan depth fold? ts).map Terminal.symbol) = false := by
  induction ts generalizing scan depth fold? bar bar' with
  | nil => cases fold? <;> rfl
  | cons t ts ih =>
    rw [List.map_cons, commentBehindBar_cons, Bool.or_eq_false_iff] at h
    obtain ⟨hcomment, hrest⟩ := h
    cases fold? with
    | none =>
      obtain rfl : bar' = bar := hbar.resolve_right (by simp)
      have hkeep (depth : Nat) : commentBehindBar bar'
          ((t :: limitFrom (scan.next t.symbol) depth none ts).map Terminal.symbol) = false := by
        rw [List.map_cons, commentBehindBar_cons, hcomment, ih hrest (.inl rfl)]
        rfl
      unfold limitFrom
      cases scan.effect t.symbol with
      | opens =>
        simp only
        split
        · exact ih hrest (.inr rfl)
        · exact hkeep _
      | closes => exact hkeep _
      | same => exact hkeep _
    | some f =>
      simp only [limitFrom]
      split
      · rw [List.map_cons]
        exact ih (commentBehindBar_false hrest) (.inl rfl)
      · exact ih hrest (.inr rfl)

end Limit

/-! ## Phrases without comments -/

/-- The rules read the texts of leaves of the kind and role. -/
def isRead (kind : NodeKind) (field : Option Field) : Bool :=
  kind == .keyword || kind == .option || kind == .variableDefinition || field == some .name

lemma isRead_eq_false {kind : NodeKind} {field : Option Field} (hk : kind.isLeaf = false)
    (hf : field ≠ some .name) : isRead kind field = false := by
  cases kind <;> simp_all [isRead, NodeKind.isLeaf]

mutual

/-- The phrase of one source is the phrase of another, without its comments: it has the kind, the
role, the texts that are read and the phrases inside it. -/
inductive Phrase.Matches (source source' : Text) : Phrase → Phrase → Prop
  /-- Leaves with the same text, if it is read. -/
  | leaf {kind : NodeKind} {field : Option Field} {span span' : Span} (hk : kind ≠ .comment)
      (ht : isRead kind field = true → span.text? source = span'.text? source') :
      Phrase.Matches source source' (.leaf kind field span) (.leaf kind field span')
  /-- Nodes with the same phrases inside them. -/
  | node {kind : NodeKind} {field : Option Field} {children children' : List Phrase}
      (hk : kind.isLeaf = false) (hf : field ≠ some .name)
      (h : PhrasesMatch source source' children children') :
      Phrase.Matches source source' (.node kind field children) (.node kind field children')

/-- The phrases of one source are the phrases of another, without the comments among them and inside
them. -/
inductive PhrasesMatch (source source' : Text) : List Phrase → List Phrase → Prop
  /-- No phrases. -/
  | nil : PhrasesMatch source source' [] []
  /-- A comment is left out. -/
  | comment {field : Option Field} {span : Span} {ps ps' : List Phrase}
      (h : PhrasesMatch source source' ps ps') :
      PhrasesMatch source source' (.leaf .comment field span :: ps) ps'
  /-- Another phrase stays. -/
  | keep {p p' : Phrase} {ps ps' : List Phrase} (hp : p.Matches source source' p')
      (h : PhrasesMatch source source' ps ps') : PhrasesMatch source source' (p :: ps) (p' :: ps')

end

namespace PhrasesMatch

variable {source source' : Text}

lemma append : ∀ {ps ps' qs qs'}, PhrasesMatch source source' ps ps' →
    PhrasesMatch source source' qs qs' → PhrasesMatch source source' (ps ++ qs) (ps' ++ qs')
  | _, _, _, _, .nil, h => h
  | _, _, _, _, .comment h, h' => .comment (h.append h')
  | _, _, _, _, .keep hp h, h' => .keep hp (h.append h')

lemma reverse : ∀ {ps ps'}, PhrasesMatch source source' ps ps' →
    PhrasesMatch source source' ps.reverse ps'.reverse
  | _, _, .nil => .nil
  | _, _, @comment _ _ field span ps ps' h => by
    rw [List.reverse_cons, ← List.append_nil ps'.reverse]
    exact h.reverse.append (.comment .nil)
  | _, _, .keep hp h => by
    rw [List.reverse_cons, List.reverse_cons]
    exact h.reverse.append (.keep hp .nil)

end PhrasesMatch

/-! ## Open nodes without comments -/

/-- The terminal of one source is the terminal of another, and no comment. -/
structure Terminal.Matches (source source' : Text) (t t' : Terminal) : Prop where
  symbol : t'.symbol = t.symbol
  visible : t.symbol ≠ .comment
  reads : t.Reads source
  reads' : t'.Reads source'

/-- The open node of one source is the open node of another, without its comments, except that it
may expect something else. -/
structure Frame.Holds (source source' : Text) (f f' : Frame) : Prop where
  kind : f'.kind = f.kind
  field : f'.field = f.field
  inner : f.kind.isLeaf = false
  unnamed : f.field ≠ some .name
  phrases : PhrasesMatch source source' f.phrases f'.phrases

/-- The open node of one source is the open node of another, without its comments. -/
structure Frame.Matches (source source' : Text) (f f' : Frame) : Prop
    extends Frame.Holds source source' f f' where
  expect : f'.expect = f.expect

/-- The move in one source is the move in another, without comments. -/
structure Move.Matches (source source' : Text) (m m' : Move) : Prop where
  frame : m.frame.Matches source source' m'.frame
  inner : Option.Rel (Frame.Matches source source') m.inner? m'.inner?

/-- The open nodes of one source are those of another, without comments. -/
structure Stack.Matches (source source' : Text) (s s' : Stack) : Prop where
  top : s.top.Matches source source' s'.top
  below : List.Forall₂ (Frame.Matches source source') s.below s'.below

section Moves

variable {source source' : Text} {t t' : Terminal} {kind leafKind : NodeKind}
  {field leafField : Option Field} {e : Expect} {w : Text}

lemma Terminal.Matches.word (h : t.Matches source source' t') (hw : t.symbol = .word w)
    (hk : kind ∈ t.symbol.leafKinds) :
    (Phrase.leaf kind field t.span).Matches source source' (.leaf kind field t'.span) := by
  refine .leaf ?_ fun _ => ?_
  · rintro rfl
    rw [hw] at hk
    simp [Symbol.leafKinds] at hk
  · rw [h.reads w hw, h.reads' w (h.symbol.trans hw)]

lemma Phrase.Matches.unread {span span' : Span} (hk : kind ≠ .comment)
    (hread : isRead kind field = false) :
    (Phrase.leaf kind field span).Matches source source' (.leaf kind field span') :=
  .leaf hk fun h => by simp [hread] at h

namespace Frame

variable {f f' : Frame}

lemma Holds.phrase (h : f.Holds source source' f') :
    f.phrase.Matches source source' f'.phrase := by
  rw [Frame.phrase, Frame.phrase, h.kind, h.field]
  exact .node h.inner h.unnamed h.phrases.reverse

lemma Matches.add {p p' : Phrase} (h : f.Matches source source' f')
    (hp : p.Matches source source' p') : (f.add p).Matches source source' (f'.add p') :=
  ⟨⟨h.kind, h.field, h.inner, h.unnamed, .keep hp h.phrases⟩, h.expect⟩

lemma Matches.ofKind (h : f.Matches source source' f') (hk : kind.isLeaf = false) :
    ({ f with kind } : Frame).Matches source source' { f' with kind } :=
  ⟨⟨rfl, h.field, hk, h.unnamed, h.phrases⟩, h.expect⟩

lemma Matches.take (h : f.Matches source source' f')
    (hleaf : (Phrase.leaf leafKind leafField t.span).Matches source source'
      (.leaf leafKind leafField t'.span)) :
    (f.take leafKind leafField t e).Matches source source' (f'.take leafKind leafField t' e) :=
  ⟨⟨⟨h.kind, h.field, h.inner, h.unnamed, .keep hleaf h.phrases⟩, rfl⟩, .none⟩

lemma Matches.enter {inner inner' : Frame} (h : f.Matches source source' f')
    (hinner : inner.Matches source source' inner') :
    (f.enter e inner).Matches source source' (f'.enter e inner') :=
  ⟨⟨⟨h.kind, h.field, h.inner, h.unnamed, h.phrases⟩, rfl⟩, .some hinner⟩

lemma matches_opened (hk : kind.isLeaf = false) (hf : field ≠ some .name)
    (hleaf : (Phrase.leaf leafKind leafField t.span).Matches source source'
      (.leaf leafKind leafField t'.span)) :
    (opened kind field leafKind leafField t e).Matches source source'
      (opened kind field leafKind leafField t' e) :=
  ⟨⟨rfl, rfl, hk, hf, .keep hleaf .nil⟩, rfl⟩

lemma matches_command (ht : t.Matches source source' t') (hw : t.symbol = .word w)
    (hf : field ≠ some .name) (staged : Bool) :
    (command field staged t w).Matches source source' (command field staged t' w) :=
  matches_opened rfl hf (ht.word hw (by simp [hw, Symbol.leafKinds]))

lemma matches_construct (ht : t.Matches source source' t') (hw : t.symbol = .word w)
    (hf : field ≠ some .name) :
    (construct field t w).Matches source source' (construct field t' w) := by
  have hkeyword : (Phrase.leaf .keyword none t.span).Matches source source'
      (.leaf .keyword none t'.span) := ht.word hw (by simp [hw, Symbol.leafKinds])
  unfold construct
  split
  · exact matches_opened rfl hf hkeyword
  · split
    · exact matches_opened rfl hf hkeyword
    · split
      · exact matches_opened rfl hf hkeyword
      · exact matches_command ht hw hf false

lemma matches_clause (ht : t.Matches source source' t') (hw : t.symbol = .word w) (c : Closing) :
    (clause c t).Matches source source' (clause c t') := by
  have hkeyword : (Phrase.leaf .keyword none t.span).Matches source source'
      (.leaf .keyword none t'.span) := ht.word hw (by simp [hw, Symbol.leafKinds])
  cases c <;> exact matches_opened rfl (by simp) hkeyword

lemma matches_inStatements (h : f.Matches source source' f') (ht : t.Matches source source' t')
    (holder : Holder) (j : Bool) :
    Option.Rel (Move.Matches source source') (f.inStatements holder j t)
      (f'.inStatements holder j t') := by
  have hterminator : (Phrase.leaf .terminator none t.span).Matches source source'
      (.leaf .terminator none t'.span) := .unread (by simp) rfl
  unfold inStatements
  rw [ht.symbol]
  cases hs : t.symbol with
  | separator | newline => exact .some (h.take (.unread (by simp) rfl))
  | comment => exact absurd hs ht.visible
  | andAnd | orOr =>
    refine .some (h.enter ?_)
    split
    · exact matches_opened rfl (by simp) (.unread (by simp) rfl)
    · exact matches_opened rfl (by simp) (.unread (by simp) rfl)
  | pipe | garbage => exact .some (h.enter (matches_opened rfl (by simp) (.unread (by simp) rfl)))
  | word w =>
    have hkeyword : (Phrase.leaf .keyword none t.span).Matches source source'
        (.leaf .keyword none t'.span) := ht.word hs (by simp [hs, Symbol.leafKinds])
    simp only
    cases Closing.ofWord? w with
    | none => exact .some (h.enter (matches_construct ht hs (by simp)))
    | some c =>
      simp only
      cases holder.role c with
      | closes b => exact .some ((h.ofKind (by cases b <;> rfl)).take hkeyword)
      | beginsClause => exact .some (h.enter (matches_clause ht hs c))
      | leaves => exact .none
      | strays => exact .some (h.enter (matches_opened rfl (by simp) hkeyword))

lemma matches_piped (h : f.Matches source source' f') :
    (f.piped t).Matches source source' (f'.piped t') := by
  refine ⟨⟨rfl, h.field, rfl, h.unnamed, .keep (.unread (by simp) rfl) (.keep ?_ .nil)⟩, rfl⟩
  exact .node rfl (by simp) h.phrases.reverse

/-- A node does with a terminal that is no comment what it does without its comments. -/
theorem matches_accept (h : f.Matches source source' f') (ht : t.Matches source source' t') :
    Option.Rel (Move.Matches source source') (f.accept t) (f'.accept t') := by
  have hlist := matches_inStatements h ht
  have hword {w : Text} (hs : t.symbol = .word w) {kind : NodeKind} {field : Option Field}
      (hk : kind ∈ (Symbol.word w).leafKinds) (e : Expect) :
      (f.take kind field t e).Matches source source' (f'.take kind field t' e) :=
    h.take (ht.word hs (by rw [hs]; exact hk))
  have hconstruct {w : Text} (hs : t.symbol.starter? = some w) {field : Option Field}
      (hf : field ≠ some .name) (e : Expect) :
      (f.enter e (construct field t w)).Matches source source'
        (f'.enter e (construct field t' w)) :=
    h.enter (matches_construct ht (Symbol.starter?_eq_some.1 hs).1 hf)
  unfold accept
  rw [h.expect, ht.symbol]
  -- what no form of the node takes is left to the list of statements, or refused
  cases f.expect with
  | statements holder j => exact hlist holder j
  | functionHeader named =>
    cases hs : t.symbol with
    | word w =>
      simp only [inFunctionHeader]
      split
      · exact .some (hword hs (by simp [Symbol.leafKinds]) _)
      · exact .some (hword hs (wordKind_mem w) _)
    | _ => exact hlist _ _
  | loopHeader named listed =>
    cases hs : t.symbol with
    | word w =>
      simp only [inLoopHeader]
      split
      · exact .some (hword hs (by simp [Symbol.leafKinds]) _)
      · split
        · exact .some (hword hs (by simp [Symbol.leafKinds]) _)
        · exact .some (hword hs (wordKind_mem w) _)
    | _ => exact hlist _ _
  | headerWords holder =>
    cases hs : t.symbol with
    | word w => exact .some (hword hs (wordKind_mem w) _)
    | _ => exact hlist _ _
  | condition holder =>
    cases hs : t.symbol.starter? with
    | some w => exact .some (hconstruct hs (by simp) _)
    | none => exact hlist _ _
  | conditionRest holder =>
    simp only
    split
    · exact .some (h.enter (matches_opened rfl (by simp) (.unread (by simp) rfl)))
    · exact hlist _ _
  | elseHead =>
    simp only
    split
    case isTrue hs =>
      exact .some ((h.ofKind rfl).take (ht.word hs (by simp [hs, Symbol.leafKinds])))
    case isFalse => exact hlist _ _
  | finalWords =>
    cases hs : t.symbol with
    | word w => exact .some (hword hs (wordKind_mem w) _)
    | _ => exact .none
  | strayWords =>
    cases hs : t.symbol.starter? with
    | some w => exact .some (hword (Symbol.starter?_eq_some.1 hs).1 (wordKind_mem w) _)
    | none => exact .none
  | arguments staged scan =>
    cases hs : t.symbol with
    | word w => exact .some (hword hs (scan_mem scan w) _)
    | pipe =>
      cases staged with
      | true => exact .none
      | false => exact .some ⟨matches_piped h, .none⟩
    | _ => exact .none
  | conjunctions =>
    cases hs : t.symbol.starter? with
    | some w =>
      simp only
      split
      · exact .some (hword (Symbol.starter?_eq_some.1 hs).1 (by simp [Symbol.leafKinds]) _)
      · exact .some (hconstruct hs (by simp) _)
    | none => exact .none
  | connectors =>
    simp only
    split
    · exact .some (h.take (.unread (by simp) rfl))
    · cases hs : t.symbol.starter? with
      | some w => exact .some (hconstruct hs (by simp) _)
      | none => exact .none
  | garbage =>
    cases t.symbol with
    | garbage | word w => exact .some (h.take (.unread (by simp) rfl))
    | _ => exact .none
  | joined =>
    cases hs : t.symbol with
    | newline => exact .some (h.take (.unread (by simp) rfl))
    | comment => exact absurd hs ht.visible
    | word w =>
      simp only
      cases hw : (Symbol.word w).starter? with
      | some v => exact .some (hconstruct (hs ▸ hw) (by simp) _)
      | none => exact .none
    | _ => exact .none
  | stage =>
    cases hs : t.symbol with
    | newline | pipe => exact .some (h.take (.unread (by simp) rfl))
    | word w =>
      simp only
      cases hw : (Symbol.word w).starter? with
      | some v =>
        obtain ⟨hv, -⟩ := Symbol.starter?_eq_some.1 hw
        exact .some (h.enter (matches_command ht (hs.trans hv) (by simp) true))
      | none => exact .none
    | _ => exact .none
  | bar =>
    cases t.symbol with
    | pipe => exact .some (h.take (.unread (by simp) rfl))
    | _ => exact .none
  | nothing => exact .none

end Frame

end Moves

/-! ## Ends of lines -/

/-- What a node expects behind the end of a line, if it takes it. -/
def Expect.afterLine? : Expect → Option Expect
  | .statements h _ | .headerWords h | .condition h | .conditionRest h =>
    some (.statements h false)
  | .functionHeader _ => some (.statements (.block .function) false)
  | .loopHeader _ _ => some (.statements (.block .forLoop) false)
  | .elseHead => some (.statements .otherwise false)
  | .joined => some .joined
  | .stage => some .stage
  | _ => none

section Lines

variable {f : Frame} {t : Terminal} {e e' : Expect}

lemma Expect.afterLine?_afterLine (h : e.afterLine? = some e') : e'.afterLine? = some e' := by
  cases e <;> cases h <;> rfl

lemma Frame.accept_newline (hs : t.symbol = .newline) :
    f.accept t = f.expect.afterLine?.map fun e => f.take .terminator none t e := by
  unfold accept
  cases f.expect <;>
    simp [hs, inStatements, Symbol.starter?, Symbol.isConnector, Expect.afterLine?]

/-- To a node that is not between a bar and a command a comment is the end of a line. -/
lemma Frame.accept_comment (hs : t.symbol = .comment) (hf : f.expect ≠ .stage) :
    f.accept t = f.expect.afterLine?.map fun e => f.take .comment none t e := by
  unfold accept
  cases he : f.expect with
  | stage => exact absurd he hf
  | _ => simp [hs, inStatements, Symbol.starter?, Symbol.isConnector, Expect.afterLine?]

end Lines

section Steps

variable {source source' : Text} {t t' : Terminal}

namespace Stack

lemma matches_ofMove {m m' : Move} {below below' : List Frame} (hm : m.Matches source source' m')
    (hbelow : List.Forall₂ (Frame.Matches source source') below below') :
    (ofMove m below).Matches source source' (ofMove m' below') := by
  obtain ⟨frame, inner?⟩ := m
  obtain ⟨frame', inner?'⟩ := m'
  obtain ⟨hframe, hinner⟩ := hm
  cases hinner with
  | none => exact ⟨hframe, hbelow⟩
  | some hinner => exact ⟨hinner, .cons hframe hbelow⟩

/-- A terminal that is no comment is offered to the same nodes in both sources. -/
lemma matches_offer (ht : t.Matches source source' t') {top top' : Frame}
    {below below' : List Frame} (h : top.Matches source source' top')
    (hbelow : List.Forall₂ (Frame.Matches source source') below below') :
    (offer t top below).Matches source source' (offer t' top' below') := by
  induction hbelow generalizing top top' with
  | nil =>
    have hrel := Frame.matches_accept h ht
    rw [offer, offer]
    generalize top.accept t = m, top'.accept t' = m' at hrel
    cases hrel with
    | none => exact ⟨h, .nil⟩
    | some hm => exact matches_ofMove hm .nil
  | cons hnext hbelow ih =>
    have hrel := Frame.matches_accept h ht
    rw [offer, offer]
    generalize top.accept t = m, top'.accept t' = m' at hrel
    cases hrel with
    | none => exact ih (hnext.add h.phrase)
    | some hm => exact matches_ofMove hm (.cons hnext hbelow)

/-- A step with a terminal that is no comment keeps the open nodes the same in both sources. -/
theorem Matches.step {s s' : Stack} (h : s.Matches source source' s')
    (ht : t.Matches source source' t') : (s.step t).Matches source source' (s'.step t') :=
  matches_offer ht h.top h.below

lemma matches_close {top top' : Frame} {below below' : List Frame}
    (h : top.Holds source source' top')
    (hbelow : List.Forall₂ (Frame.Matches source source') below below') :
    (close top below).Matches source source' (close top' below') := by
  induction hbelow generalizing top top' with
  | nil => exact h.phrase
  | cons hnext hbelow ih => exact ih (hnext.add h.phrase).toHolds

lemma Matches.phrase {s s' : Stack} (h : s.Matches source source' s') :
    s.phrase.Matches source source' s'.phrase :=
  matches_close h.top.toHolds h.below

/-- No node outside the innermost one waits for the next command of a pipeline, and the innermost
one only behind a bar. -/
structure Staged (bar : Bool) (top : Frame) (below : List Frame) : Prop where
  top : top.expect = .stage → bar = true
  below : ∀ f ∈ below, f.expect ≠ .stage

lemma Staged.pop {bar : Bool} {top next : Frame} {below : List Frame}
    (h : Staged bar top (next :: below)) (p : Phrase) : Staged bar (next.add p) below := by
  obtain ⟨hnext, hbelow⟩ := List.forall_mem_cons.1 h.below
  exact ⟨fun he => absurd he hnext, hbelow⟩

/-- The open nodes, of which the innermost has just taken a comment, become those of the other
source at the next end of a line, or close like them at the end of the source. -/
structure Settles (source source' : Text) (s s' : Stack) : Prop where
  phrase : s.phrase.Matches source source' s'.phrase
  line : ∀ {n n' : Terminal}, n.Matches source source' n' → n.symbol = .newline →
    (s.step n).Matches source source' (s'.step n')

/-- A node that takes a comment takes the end of its line as it would have without the comment. -/
lemma settles_of_take {top top' : Frame} {below below' : List Frame} {e : Expect}
    (h : top.Matches source source' top')
    (hbelow : List.Forall₂ (Frame.Matches source source') below below')
    (he : top.expect.afterLine? = some e) :
    Settles source source' ⟨(top.take .comment none t e).frame, below⟩ ⟨top', below'⟩ := by
  have hphrases : PhrasesMatch source source' (top.take .comment none t e).frame.phrases
      top'.phrases := .comment h.phrases
  refine ⟨matches_close ⟨h.kind, h.field, h.inner, h.unnamed, hphrases⟩ hbelow, ?_⟩
  intro n n' hn hline
  have htake : (top.take .comment none t e).frame.accept n =
      some ((top.take .comment none t e).frame.take .terminator none n e) := by
    rw [Frame.accept_newline hline]
    change (Expect.afterLine? e).map _ = _
    rw [Expect.afterLine?_afterLine he]
    rfl
  have htake' : top'.accept n' = some (top'.take .terminator none n' e) := by
    rw [Frame.accept_newline (hn.symbol.trans hline), h.expect, he]
    rfl
  rw [step, step, offer_of_accept htake, offer_of_accept htake']
  exact ⟨⟨⟨h.kind, h.field, h.inner, h.unnamed, .keep (.unread (by simp) rfl) hphrases⟩, rfl⟩,
    hbelow⟩

/-- A comment closes the nodes that the end of its line closes, and behind the end of the line it
makes no difference. -/
lemma settles_offer (hs : t.symbol = .comment) {top top' : Frame} {below below' : List Frame}
    (h : top.Matches source source' top')
    (hbelow : List.Forall₂ (Frame.Matches source source') below below')
    (hstaged : Staged false top below) :
    Settles source source' (offer t top below) ⟨top', below'⟩ := by
  induction hbelow generalizing top top' with
  | nil =>
    have hcomment := Frame.accept_comment hs fun he => Bool.noConfusion (hstaged.top he)
    cases he : top.expect.afterLine? with
    | some e =>
      rw [he] at hcomment
      rw [offer_of_accept hcomment]
      exact settles_of_take h .nil he
    | none =>
      have hrefuse : offer t top [] = ⟨top, []⟩ := by
        rw [offer, hcomment, he]
        rfl
      rw [hrefuse]
      exact ⟨matches_close h.toHolds .nil, fun hn _ => matches_offer hn h .nil⟩
  | @cons next next' below below' hnext hbelow ih =>
    have hcomment := Frame.accept_comment hs fun he => Bool.noConfusion (hstaged.top he)
    cases he : top.expect.afterLine? with
    | some e =>
      rw [he] at hcomment
      rw [offer_of_accept hcomment]
      exact settles_of_take h (.cons hnext hbelow) he
    | none =>
      rw [he] at hcomment
      rw [offer_of_refuse hcomment]
      have hsettles := ih (hnext.add h.phrase) (hstaged.pop _)
      refine ⟨hsettles.phrase, fun {n n'} hn hline => ?_⟩
      -- the end of the line closes the node in the other source, too
      have hrefuse' : top'.accept n' = none := by
        rw [Frame.accept_newline (hn.symbol.trans hline), h.expect, he]
        rfl
      have hstep : step ⟨top', next' :: below'⟩ n' = step ⟨next'.add top'.phrase, below'⟩ n' :=
        offer_of_refuse hrefuse'
      rw [hstep]
      exact hsettles.line hn hline

end Stack

end Steps

/-! ## Nodes that wait for the next command of a pipeline -/

namespace Frame

variable {f inner : Frame} {t : Terminal} {m : Move}

lemma construct_ne_stage (field : Option Field) (t : Terminal) (w : Text) :
    (construct field t w).expect ≠ .stage := by
  have hheader (b : Block) : b.header ≠ .stage := by cases b <;> exact Expect.noConfusion
  unfold construct
  split
  · exact hheader _
  · split
    · exact Expect.noConfusion
    · split <;> exact Expect.noConfusion

lemma Rule.stage (hm : f.Rule t m) (hi : m.inner? = none) (he : m.frame.expect = .stage) :
    t.symbol = .pipe ∨ t.symbol = .newline ∧ f.expect = .stage := by
  cases hm with
  | pipe _ hs | bar _ hs => exact .inl hs
  | stageBreak hstage hs => exact .inr ⟨hs, hstage⟩
  | join | dangle | garble | begin | clause | stray | condition | conditionJoin | conjoined
  | connected | joined | staged => cases hi
  | terminator | comment | close | functionName | functionOption | loopName | loopIn | loopItem
  | headerWord | elseIf | finalWord | strayWord | argument | conjunction | connector | garbage
  | lineBreak | lineComment => cases he

lemma Rule.inner_ne_stage (hm : f.Rule t m) (hi : m.inner? = some inner) :
    m.frame.expect ≠ .stage ∧ inner.expect ≠ .stage := by
  cases hm with
  | begin | condition | conjoined | connected | joined =>
    cases hi
    exact ⟨Expect.noConfusion, construct_ne_stage _ _ _⟩
  | @clause _ _ c =>
    cases hi
    cases c <;> exact ⟨Expect.noConfusion, Expect.noConfusion⟩
  | join | dangle | garble | stray | conditionJoin | staged =>
    cases hi
    exact ⟨Expect.noConfusion, Expect.noConfusion⟩
  | _ => cases hi

end Frame

/-- The bar that comes before a symbol stands also before the next one, unless something else than
the end of a line comes between them. -/
lemma Stack.Staged.step {s : Stack} {bar : Bool} (hs : s.Grounded) (h : Staged bar s.top s.below)
    (t : Terminal) : Staged (t.symbol == .pipe || t.symbol == .newline && bar)
      (s.step t).top (s.step t).below := by
  refine step_induction (P := Staged bar)
    (Q := fun s => Staged (t.symbol == .pipe || t.symbol == .newline && bar) s.top s.below) hs h
    (fun h _ => h.pop _) ?_
  rintro top below ⟨frame, inner?⟩ h hm
  cases hi : inner? with
  | none =>
    refine ⟨fun he => ?_, h.below⟩
    rcases hm.stage hi he with hpipe | ⟨hline, hstage⟩
    · rw [hpipe]
      rfl
    · rw [hline, h.top hstage]
      rfl
  | some inner =>
    obtain ⟨hframe, hinner⟩ := hm.inner_ne_stage hi
    exact ⟨fun he => absurd he hinner, List.forall_mem_cons.2 ⟨hframe, h.below⟩⟩

/-! ## Runs of the parser -/

/-- The terminals of one source are those of another and comments, each with the end of its line
behind it. -/
structure Uncomments (source source' : Text) (ts ts' : List Terminal) : Prop where
  lines : ts.IsChain EndsComment
  symbols : visible ts = ts'.map Terminal.symbol
  reads : ∀ t ∈ ts, t.Reads source
  reads' : ∀ t ∈ ts', t.Reads source'

namespace Uncomments

variable {source source' : Text} {t : Terminal} {ts ts' : List Terminal}

lemma of_comment (h : Uncomments source source' (t :: ts) ts') (hs : t.symbol = .comment) :
    Uncomments source source' ts ts' where
  lines := (List.isChain_cons.1 h.lines).2
  symbols := (visible_cons_comment hs ts).symm.trans h.symbols
  reads := fun u hu => h.reads u (List.mem_cons_of_mem t hu)
  reads' := h.reads'

lemma of_other (h : Uncomments source source' (t :: ts) ts') (hs : t.symbol ≠ .comment) :
    ∃ t' rest, ts' = t' :: rest ∧ t.Matches source source' t' ∧
      Uncomments source source' ts rest := by
  have hsymbols := h.symbols
  rw [visible_cons hs] at hsymbols
  obtain ⟨t', rest, rfl, ht', hrest⟩ := List.map_eq_cons_iff.1 hsymbols.symm
  obtain ⟨hread, hreads⟩ := List.forall_mem_cons.1 h.reads
  obtain ⟨hread', hreads'⟩ := List.forall_mem_cons.1 h.reads'
  exact ⟨t', rest, rfl, ⟨ht', hs, hread, hread'⟩, (List.isChain_cons.1 h.lines).2, hrest.symm,
    hreads, hreads'⟩

end Uncomments

namespace Stack

variable {source source' : Text} {ts ts' : List Terminal} {s s' : Stack} {bar : Bool}

/-- Unless a comment stands behind a bar, the parser makes of the terminals without the comments
the phrase that it makes of the terminals, without its comments. -/
theorem Matches.foldl (h : s.Matches source source' s') (hs : s.Grounded)
    (hstaged : Staged bar s.top s.below) (hts : Uncomments source source' ts ts')
    (hbar : commentBehindBar bar (ts.map Terminal.symbol) = false) :
    (ts.foldl Stack.step s).phrase.Matches source source' (ts'.foldl Stack.step s').phrase := by
  induction hlength : ts.length using Nat.strong_induction_on generalizing ts ts' s s' bar with
  | _ k ih =>
    cases ts with
    | nil =>
      obtain rfl := List.map_eq_nil_iff.1 hts.symbols.symm
      exact h.phrase
    | cons t ts =>
      rw [List.map_cons, commentBehindBar_cons, Bool.or_eq_false_iff] at hbar
      obtain ⟨hcomment, hbar⟩ := hbar
      by_cases hc : t.symbol = .comment
      · obtain rfl : bar = false := by simpa [hc] using hcomment
        have hafter := hts.of_comment hc
        have hsettles := settles_offer hc h.top h.below hstaged
        cases ts with
        | nil =>
          obtain rfl := List.map_eq_nil_iff.1 hafter.symbols.symm
          exact hsettles.phrase
        | cons n ts =>
          have hline : n.symbol = .newline := (List.isChain_cons.1 hts.lines).1 n rfl hc
          obtain ⟨n', rest, rfl, hn, hrest⟩ := hafter.of_other (by simp [hline])
          have hgrounded := hs.step t
          have hstaged' := (hstaged.step hs t).step hgrounded n
          rw [List.map_cons, commentBehindBar_cons, Bool.or_eq_false_iff] at hbar
          simp only [List.foldl_cons]
          refine ih ts.length ?_ (hsettles.line hn hline) (hgrounded.step n) hstaged' hrest hbar.2
            rfl
          rw [← hlength, List.length_cons, List.length_cons]
          omega
      · obtain ⟨t', rest, rfl, ht, hrest⟩ := hts.of_other hc
        simp only [List.foldl_cons]
        refine ih ts.length ?_ (h.step ht) (hs.step t) (hstaged.step hs t) hrest hbar rfl
        rw [← hlength, List.length_cons]
        omega

end Stack

section Sources

variable {source source' : Text} {ts ts' : List Terminal}

/-- Unless a comment stands behind a bar, the phrase of the terminals without the comments is the
phrase of the terminals without its comments. -/
theorem matches_parseTerminals (hts : Uncomments source source' ts ts')
    (hbar : commentBehindBar false (ts.map Terminal.symbol) = false) :
    (parseTerminals ts).Matches source source' (parseTerminals ts') := by
  have hinitial : Stack.Matches source source' .initial .initial :=
    ⟨⟨⟨rfl, rfl, rfl, by simp [Stack.initial], .nil⟩, rfl⟩, .nil⟩
  exact hinitial.foldl Stack.grounded_initial ⟨by rintro ⟨⟩, by simp [Stack.initial]⟩ hts hbar

lemma uncomments_limited
    (h : visible (terminals source) = (terminals source').map Terminal.symbol) :
    Uncomments source source' (limited source) (limited source') where
  lines := endsComments_limitNesting source
  symbols := visible_limitFrom (endsComments_terminals source) h (.inl rfl) rfl (by simp)
  reads := fun _ ht => reads_of_mem_limited ht
  reads' := fun _ ht => reads_of_mem_limited ht

end Sources

end FishScript
