/-
# The rules of the grammar

What an open node does with a terminal is a choice between the rules listed here, one for each
way in which a terminal can become a leaf. `Frame.accept` is exactly this choice
(`accept_eq_some_iff`); what a run of the parser keeps is then proved rule by rule.

A step of the parser closes the nodes that have no use for the terminal and moves the first that
has one. `Stack.offer_induction` is the induction over such a step, and `Rooted` says why some
node always takes the terminal: the outermost is the program.
-/
import Mathlib
import FishScript.Grammar.Parser

namespace FishScript

namespace Symbol

/-- The closing word that a symbol is. -/
def closing? : Symbol → Option Closing
  | .word w => Closing.ofWord? w
  | _ => none

/-- The kinds of the leaves that a symbol may become. -/
def leafKinds : Symbol → List NodeKind
  | .word _ => [.word, .option, .variableDefinition, .keyword]
  | .andAnd | .orOr | .pipe => [.operator]
  | .separator | .newline => [.terminator]
  | .comment => [.comment]
  | .garbage => [.word]

lemma starter?_eq_some {s : Symbol} {w : Text} :
    s.starter? = some w ↔ s = .word w ∧ Closing.ofWord? w = none := by
  cases s with
  | word v =>
    simp only [starter?, Option.isNone_iff_eq_none, Option.ite_none_right_eq_some,
      Option.some.injEq, word.injEq]
    constructor
    · rintro ⟨h, rfl⟩
      exact ⟨rfl, h⟩
    · rintro ⟨rfl, h⟩
      exact ⟨h, rfl⟩
  | _ => simp [starter?]

lemma starter?_eq_none {s : Symbol} : s.starter? = none ↔ ∀ w, s = .word w → s.closing?.isSome := by
  cases s with
  | word v =>
    simp only [starter?, closing?, Option.isNone_iff_eq_none, word.injEq, forall_eq',
      ite_eq_right_iff, reduceCtorEq, imp_false, Option.isSome_iff_ne_none, ne_eq]
  | _ => simp [starter?]

end Symbol

namespace Expect

/-- The list of statements in which a symbol stands, if the node is in one or the symbol ends
what the node expects before it. -/
def listed? (s : Symbol) : Expect → Option (Holder × Bool)
  | .statements h j => some (h, j)
  | .functionHeader _ => match s with
    | .word _ => none
    | _ => some (.block .function, false)
  | .loopHeader _ _ => match s with
    | .word _ => none
    | _ => some (.block .forLoop, false)
  | .headerWords h => match s with
    | .word _ => none
    | _ => some (h, false)
  | .condition h => if s.starter?.isSome then none else some (h, false)
  | .conditionRest h => if s.isConnector then none else some (h, false)
  | .elseHead => if s = .word "if".toList then none else some (.otherwise, false)
  | _ => none

end Expect

namespace Frame

/-- A terminal stands in a list of statements of the node. -/
def Lists (f : Frame) (t : Terminal) (h : Holder) (j : Bool) : Prop :=
  f.expect.listed? t.symbol = some (h, j)

/-- The ways in which an open node, or a new node inside it, takes a terminal. -/
inductive Rule (f : Frame) (t : Terminal) : Move → Prop
  /-- The end of a statement. -/
  | terminator {h : Holder} {j : Bool} (hl : f.Lists t h j)
      (hs : t.symbol = .separator ∨ t.symbol = .newline) :
      Rule f t (f.take .terminator none t (.statements h false))
  /-- A comment among statements. -/
  | comment {h : Holder} {j : Bool} (hl : f.Lists t h j) (hs : t.symbol = .comment) :
      Rule f t (f.take .comment none t (.statements h false))
  /-- A connector after a statement. -/
  | join {h : Holder} (hl : f.Lists t h true) (hs : t.symbol.isConnector = true) :
      Rule f t (f.enter (.statements h true) (joining none t))
  /-- A connector or a bar after no statement. -/
  | dangle {h : Holder} {j : Bool} (hl : f.Lists t h j)
      (hs : t.symbol = .pipe ∨ t.symbol.isConnector = true ∧ j = false) :
      Rule f t (f.enter (.statements h true) (dangling t))
  /-- Garbage. -/
  | garble {h : Holder} {j : Bool} (hl : f.Lists t h j) (hs : t.symbol = .garbage) :
      Rule f t (f.enter (.statements h true) (garbled t))
  /-- The first word of a statement. -/
  | begin {h : Holder} {j : Bool} {w : Text} (hl : f.Lists t h j)
      (hs : t.symbol.starter? = some w) :
      Rule f t (f.enter (.statements h true) (construct none t w))
  /-- The end of the block. -/
  | close {h : Holder} {j : Bool} {c : Closing} {b : Block} (hl : f.Lists t h j)
      (hs : t.symbol.closing? = some c) (hr : h.role c = .closes b) :
      Rule f t ({ f with kind := b.kind }.take .keyword none t .finalWords)
  /-- The first word of a clause. -/
  | clause {h : Holder} {j : Bool} {c : Closing} (hl : f.Lists t h j)
      (hs : t.symbol.closing? = some c) (hr : h.role c = .beginsClause) :
      Rule f t (f.enter (.statements h false) (Frame.clause c t))
  /-- A closing word that closes nothing. -/
  | stray {h : Holder} {j : Bool} {c : Closing} (hl : f.Lists t h j)
      (hs : t.symbol.closing? = some c) (hr : h.role c = .strays) :
      Rule f t (f.enter (.statements h false) (Frame.stray t))
  /-- The name of a function. -/
  | functionName {w : Text} (he : f.expect = .functionHeader false) (hs : t.symbol = .word w)
      (hw : wordKind w = .word) : Rule f t (f.take .word (some .name) t (.functionHeader true))
  /-- Another word of a function header. -/
  | functionOption {named : Bool} {w : Text} (he : f.expect = .functionHeader named)
      (hs : t.symbol = .word w) (hw : named = true ∨ wordKind w ≠ .word) :
      Rule f t (f.take (wordKind w) (some .option) t (.functionHeader named))
  /-- The variable of a loop. -/
  | loopName {listed : Bool} {w : Text} (he : f.expect = .loopHeader false listed)
      (hs : t.symbol = .word w) : Rule f t (f.take .word (some .name) t (.loopHeader true listed))
  /-- The word between the variable of a loop and its items. -/
  | loopIn (he : f.expect = .loopHeader true false) (hs : t.symbol = .word "in".toList) :
      Rule f t (f.take .keyword none t (.loopHeader true true))
  /-- An item of a loop. -/
  | loopItem {listed : Bool} {w : Text} (he : f.expect = .loopHeader true listed)
      (hs : t.symbol = .word w) (hw : listed = true ∨ w ≠ "in".toList) :
      Rule f t (f.take (wordKind w) (some .argument) t (.loopHeader true listed))
  /-- A word after `switch` or `case`. -/
  | headerWord {h : Holder} {w : Text} (he : f.expect = .headerWords h) (hs : t.symbol = .word w) :
      Rule f t (f.take (wordKind w) (some .argument) t (.headerWords h))
  /-- The first word of a condition. -/
  | condition {h : Holder} {w : Text} (he : f.expect = .condition h)
      (hs : t.symbol.starter? = some w) :
      Rule f t (f.enter (.conditionRest h) (construct (some .condition) t w))
  /-- A connector in a condition. -/
  | conditionJoin {h : Holder} (he : f.expect = .conditionRest h)
      (hs : t.symbol.isConnector = true) :
      Rule f t (f.enter (.conditionRest h) (joining (some .condition) t))
  /-- The word `if` right after `else`. -/
  | elseIf (he : f.expect = .elseHead) (hs : t.symbol = .word "if".toList) :
      Rule f t ({ f with kind := .elseIfClause }.take .keyword none t (.condition .elseIf))
  /-- A word after the last keyword of a construct. -/
  | finalWord {w : Text} (he : f.expect = .finalWords) (hs : t.symbol = .word w) :
      Rule f t (f.take (wordKind w) (some .argument) t .finalWords)
  /-- A word after a closing word that closes nothing. -/
  | strayWord {w : Text} (he : f.expect = .strayWords) (hs : t.symbol.starter? = some w) :
      Rule f t (f.take (wordKind w) (some .argument) t .strayWords)
  /-- An argument of a command. -/
  | argument {staged : Bool} {scan : DefinitionScan} {w : Text}
      (he : f.expect = .arguments staged scan) (hs : t.symbol = .word w) :
      Rule f t (f.take (scan.step w).1 (some .argument) t (.arguments staged (scan.step w).2))
  /-- The first bar after a command. -/
  | pipe {scan : DefinitionScan} (he : f.expect = .arguments false scan) (hs : t.symbol = .pipe) :
      Rule f t ⟨f.piped t, none⟩
  /-- Another conjunction. -/
  | conjunction {w : Text} (he : f.expect = .conjunctions) (hs : t.symbol.starter? = some w)
      (hw : isConjunction w = true) : Rule f t (f.take .keyword none t .conjunctions)
  /-- What conjunctions join. -/
  | conjoined {w : Text} (he : f.expect = .conjunctions) (hs : t.symbol.starter? = some w)
      (hw : isConjunction w = false) : Rule f t (f.enter .nothing (construct none t w))
  /-- Another connector before no statement. -/
  | connector (he : f.expect = .connectors) (hs : t.symbol.isConnector = true ∨ t.symbol = .pipe) :
      Rule f t (f.take .operator none t .connectors)
  /-- The statement that dangling connectors take with them. -/
  | connected {w : Text} (he : f.expect = .connectors) (hs : t.symbol.starter? = some w) :
      Rule f t (f.enter .nothing (construct none t w))
  /-- More garbage, or a word that runs into it. -/
  | garbage (he : f.expect = .garbage) (hs : t.symbol = .garbage ∨ ∃ w, t.symbol = .word w) :
      Rule f t (f.take .word none t .garbage)
  /-- A line break after a connector. -/
  | lineBreak (he : f.expect = .joined) (hs : t.symbol = .newline) :
      Rule f t (f.take .terminator none t .joined)
  /-- A comment after a connector. -/
  | lineComment (he : f.expect = .joined) (hs : t.symbol = .comment) :
      Rule f t (f.take .comment none t .joined)
  /-- What a connector joins. -/
  | joined {w : Text} (he : f.expect = .joined) (hs : t.symbol.starter? = some w) :
      Rule f t (f.enter .nothing (construct none t w))
  /-- A line break after a bar. -/
  | stageBreak (he : f.expect = .stage) (hs : t.symbol = .newline) :
      Rule f t (f.take .terminator none t .stage)
  /-- Another bar of a pipeline. -/
  | bar (he : f.expect = .stage ∨ f.expect = .bar) (hs : t.symbol = .pipe) :
      Rule f t (f.take .operator none t .stage)
  /-- The next command of a pipeline. -/
  | staged {w : Text} (he : f.expect = .stage) (hs : t.symbol.starter? = some w) :
      Rule f t (f.enter .bar (command none true t w))

variable {f : Frame} {t : Terminal} {m : Move}

lemma rule_of_inStatements {h : Holder} {j : Bool} (hl : f.Lists t h j)
    (hm : f.inStatements h j t = some m) : f.Rule t m := by
  unfold inStatements at hm
  split at hm
  case h_1 hs => cases hm; exact .terminator hl (.inl hs)
  case h_2 hs => cases hm; exact .terminator hl (.inr hs)
  case h_3 hs => cases hm; exact .comment hl hs
  case h_4 hs =>
    cases j
    · cases hm; exact .dangle hl (.inr ⟨by simp [hs, Symbol.isConnector], rfl⟩)
    · cases hm; exact .join hl (by simp [hs, Symbol.isConnector])
  case h_5 hs =>
    cases j
    · cases hm; exact .dangle hl (.inr ⟨by simp [hs, Symbol.isConnector], rfl⟩)
    · cases hm; exact .join hl (by simp [hs, Symbol.isConnector])
  case h_6 hs => cases hm; exact .dangle hl (.inl hs)
  case h_7 hs => cases hm; exact .garble hl hs
  case h_8 w hs =>
    split at hm
    case h_1 hw => cases hm; exact .begin hl (Symbol.starter?_eq_some.2 ⟨hs, hw⟩)
    case h_2 c hw =>
      have hc : t.symbol.closing? = some c := by rw [hs]; exact hw
      split at hm
      case h_1 b hr => cases hm; exact .close hl hc hr
      case h_2 hr => cases hm; exact .clause hl hc hr
      case h_3 hr => cases hm
      case h_4 hr => cases hm; exact .stray hl hc hr

lemma accept_of_lists {h : Holder} {j : Bool} (hl : f.Lists t h j) :
    f.accept t = f.inStatements h j t := by
  unfold Lists Expect.listed? at hl
  unfold accept
  split at hl
  case h_1 he => cases hl; rw [he]
  case h_2 he | h_3 he | h_4 he =>
    -- the words of a header
    rw [he]
    split at hl
    · cases hl
    · rename_i hw
      cases hl
      cases hs : t.symbol with
      | word w => exact absurd hs (hw w)
      | _ => rfl
  case h_5 he =>
    rw [he]
    cases hs : t.symbol.starter? with
    | some w => simp [hs] at hl
    | none => simp only [hs, Option.isSome_none, Bool.false_eq_true, if_false] at hl; cases hl; rfl
  case h_6 he =>
    rw [he]
    split at hl
    · cases hl
    · rename_i hc
      cases hl
      simp [hc]
  case h_7 he =>
    rw [he]
    split at hl
    · cases hl
    · rename_i hc
      cases hl
      exact if_neg hc
  case h_8 => cases hl

lemma rule_of_inFunctionHeader {named : Bool} {w : Text} (he : f.expect = .functionHeader named)
    (hs : t.symbol = .word w) : f.Rule t (f.inFunctionHeader named t w) := by
  unfold inFunctionHeader
  split
  case isTrue hw =>
    simp only [Bool.and_eq_true, Bool.not_eq_true', beq_iff_eq] at hw
    obtain ⟨rfl, hw⟩ := hw
    exact .functionName he hs hw
  case isFalse hw =>
    simp only [Bool.and_eq_true, Bool.not_eq_true', beq_iff_eq, not_and_or,
      Bool.not_eq_false] at hw
    exact .functionOption he hs hw

lemma rule_of_inLoopHeader {named listed : Bool} {w : Text}
    (he : f.expect = .loopHeader named listed) (hs : t.symbol = .word w) :
    f.Rule t (f.inLoopHeader named listed t w) := by
  unfold inLoopHeader
  cases named with
  | false => exact .loopName he hs
  | true =>
    rw [if_neg (by simp)]
    split
    case isTrue hw =>
      simp only [Bool.and_eq_true, Bool.not_eq_true', beq_iff_eq] at hw
      obtain ⟨rfl, rfl⟩ := hw
      exact .loopIn he hs
    case isFalse hw =>
      simp only [Bool.and_eq_true, Bool.not_eq_true', beq_iff_eq, not_and_or,
        Bool.not_eq_false] at hw
      exact .loopItem he hs hw

lemma rule_of_accept (hm : f.accept t = some m) : f.Rule t m := by
  cases hl : f.expect.listed? t.symbol with
  | some hj =>
    obtain ⟨h, j⟩ := hj
    exact rule_of_inStatements hl ((accept_of_lists hl).symm.trans hm)
  | none =>
    -- the node takes the terminal before it could be taken among statements
    unfold accept at hm
    unfold Expect.listed? at hl
    split at hm
    case h_1 he => simp [he] at hl
    case h_2 named he =>
      split at hm
      case h_1 w hs => cases hm; exact rule_of_inFunctionHeader he hs
      case h_2 => simp [he] at hl
    case h_3 named listed he =>
      split at hm
      case h_1 w hs => cases hm; exact rule_of_inLoopHeader he hs
      case h_2 => simp [he] at hl
    case h_4 h he =>
      split at hm
      case h_1 w hs => cases hm; exact .headerWord he hs
      case h_2 => simp [he] at hl
    case h_5 h he =>
      split at hm
      case h_1 w hs => cases hm; exact .condition he hs
      case h_2 hs => simp [he, hs] at hl
    case h_6 h he =>
      split at hm
      case isTrue hs => cases hm; exact .conditionJoin he hs
      case isFalse hs => simp [he, hs] at hl
    case h_7 he =>
      split at hm
      case isTrue hs => cases hm; exact .elseIf he hs
      case isFalse hs => simp only [he] at hl; rw [if_neg hs] at hl; cases hl
    case h_8 he =>
      split at hm
      case h_1 w hs => cases hm; exact .finalWord he hs
      case h_2 => cases hm
    case h_9 he =>
      split at hm
      case h_1 w hs => cases hm; exact .strayWord he hs
      case h_2 => cases hm
    case h_10 staged scan he =>
      split at hm
      case h_1 w hs => cases hm; exact .argument he hs
      case h_2 hs =>
        cases staged
        · cases hm; exact .pipe he hs
        · cases hm
      case h_3 => cases hm
    case h_11 he =>
      split at hm
      case h_1 w hs =>
        split at hm
        case isTrue hw => cases hm; exact .conjunction he hs hw
        case isFalse hw => cases hm; exact .conjoined he hs (Bool.not_eq_true _ ▸ hw)
      case h_2 => cases hm
    case h_12 he =>
      split at hm
      case isTrue hs =>
        cases hm
        simp only [Bool.or_eq_true, beq_iff_eq] at hs
        exact .connector he hs
      case isFalse hs =>
        obtain ⟨w, hw, rfl⟩ := Option.map_eq_some_iff.1 hm
        exact .connected he hw
    case h_13 he =>
      split at hm
      case h_1 hs => cases hm; exact .garbage he (.inl hs)
      case h_2 w hs => cases hm; exact .garbage he (.inr ⟨w, hs⟩)
      case h_3 => cases hm
    case h_14 he =>
      split at hm
      case h_1 hs => cases hm; exact .lineBreak he hs
      case h_2 hs => cases hm; exact .lineComment he hs
      case h_3 =>
        obtain ⟨w, hw, rfl⟩ := Option.map_eq_some_iff.1 hm
        exact .joined he hw
    case h_15 he =>
      split at hm
      case h_1 hs => cases hm; exact .stageBreak he hs
      case h_2 hs => cases hm; exact .bar (.inl he) hs
      case h_3 =>
        obtain ⟨w, hw, rfl⟩ := Option.map_eq_some_iff.1 hm
        exact .staged he hw
    case h_16 he =>
      split at hm
      case h_1 hs => cases hm; exact .bar (.inr he) hs
      case h_2 => cases hm
    case h_17 => cases hm

lemma accept_of_rule (hr : f.Rule t m) : f.accept t = some m := by
  cases hr with
  | terminator hl hs =>
    rw [accept_of_lists hl]
    obtain hs | hs := hs <;> simp [inStatements, hs]
  | comment hl hs => rw [accept_of_lists hl]; simp [inStatements, hs]
  | join hl hs =>
    rw [accept_of_lists hl]
    cases hs' : t.symbol with
    | andAnd => simp [inStatements, hs']
    | orOr => simp [inStatements, hs']
    | _ => simp [hs', Symbol.isConnector] at hs
  | dangle hl hs =>
    rw [accept_of_lists hl]
    obtain hs | ⟨hs, rfl⟩ := hs
    · simp [inStatements, hs]
    · cases hs' : t.symbol with
      | andAnd => simp [inStatements, hs']
      | orOr => simp [inStatements, hs']
      | _ => simp [hs', Symbol.isConnector] at hs
  | garble hl hs => rw [accept_of_lists hl]; simp [inStatements, hs]
  | begin hl hs =>
    rw [accept_of_lists hl]
    obtain ⟨hs, hc⟩ := Symbol.starter?_eq_some.1 hs
    simp [inStatements, hs, hc]
  | close hl hs hr | clause hl hs hr | stray hl hs hr =>
    rw [accept_of_lists hl]
    cases hs' : t.symbol with
    | word w =>
      rw [hs', Symbol.closing?] at hs
      simp [inStatements, hs', hs, hr]
    | _ => simp [hs', Symbol.closing?] at hs
  | functionName he hs hw => simp [accept, he, hs, inFunctionHeader, hw]
  | functionOption he hs hw =>
    simp only [accept, he, hs, inFunctionHeader]
    rw [if_neg (by simpa [or_iff_not_imp_left] using hw)]
  | loopName he hs => simp [accept, he, hs, inLoopHeader]
  | loopIn he hs => simp [accept, he, hs, inLoopHeader]
  | loopItem he hs hw =>
    simp only [accept, he, hs, inLoopHeader]
    rw [if_neg (by simp), if_neg (by simpa [or_iff_not_imp_left] using hw)]
  | headerWord he hs | finalWord he hs | argument he hs => simp [accept, he, hs]
  | condition he hs | strayWord he hs => simp [accept, he, hs]
  | conditionJoin he hs => simp [accept, he, hs]
  | elseIf he hs => simp [accept, he, hs]
  | pipe he hs => simp [accept, he, hs]
  | conjunction he hs hw | conjoined he hs hw => simp [accept, he, hs, hw]
  | connector he hs =>
    simp only [accept, he]
    rw [if_pos (by simpa using hs)]
  | connected he hs =>
    obtain ⟨hs, hc⟩ := Symbol.starter?_eq_some.1 hs
    simp [accept, he, hs, Symbol.isConnector, Symbol.starter?, hc]
  | garbage he hs =>
    obtain hs | ⟨w, hs⟩ := hs <;> simp [accept, he, hs]
  | lineBreak he hs | lineComment he hs => simp [accept, he, hs]
  | joined he hs | staged he hs =>
    obtain ⟨hs, hc⟩ := Symbol.starter?_eq_some.1 hs
    simp [accept, he, hs, Symbol.starter?, hc]
  | stageBreak he hs => simp [accept, he, hs]
  | bar he hs => obtain he | he := he <;> simp [accept, he, hs]

/-- A node does with a terminal what one of the rules says, and nothing else. -/
theorem accept_eq_some_iff : f.accept t = some m ↔ f.Rule t m :=
  ⟨rule_of_accept, accept_of_rule⟩

/-- What all rules have in common: the terminal becomes a leaf of the node, or the first leaf of
a new node inside it; a bar also puts the command before it into a node of its own. -/
inductive Effect (f : Frame) (t : Terminal) : Move → Prop
  /-- The node takes the terminal. -/
  | take {kind leafKind : NodeKind} {leafField : Option Field} {expect : Expect}
      (hk : leafKind ∈ t.symbol.leafKinds) :
      Effect f t ({ f with kind }.take leafKind leafField t expect)
  /-- A new node takes it. -/
  | enter {kind leafKind : NodeKind} {field leafField : Option Field} {outer inner : Expect}
      (hk : leafKind ∈ t.symbol.leafKinds) :
      Effect f t (f.enter outer (.opened kind field leafKind leafField t inner))
  /-- The node becomes a pipeline. -/
  | pipe {scan : DefinitionScan} (he : f.expect = .arguments false scan) (hs : t.symbol = .pipe) :
      Effect f t ⟨f.piped t, none⟩

lemma wordKind_mem (w : Text) : wordKind w ∈ (Symbol.word w).leafKinds := by
  unfold wordKind
  split <;> simp [Symbol.leafKinds]

lemma scan_mem (scan : DefinitionScan) (w : Text) :
    (scan.step w).1 ∈ (Symbol.word w).leafKinds := by
  unfold DefinitionScan.step
  split <;> first | exact wordKind_mem _ | simp [Symbol.leafKinds]

lemma keyword_mem_of_closing {s : Symbol} {c : Closing} (h : s.closing? = some c) :
    NodeKind.keyword ∈ s.leafKinds := by
  cases s with
  | word w => simp [Symbol.leafKinds]
  | _ => simp [Symbol.closing?] at h

lemma operator_mem_of_connector {s : Symbol} (h : s.isConnector = true) :
    NodeKind.operator ∈ s.leafKinds := by
  cases s with
  | andAnd | orOr => simp [Symbol.leafKinds]
  | _ => simp [Symbol.isConnector] at h

lemma construct_opened (field : Option Field) (t : Terminal) (w : Text) :
    ∃ kind leafKind leafField expect, leafKind ∈ (Symbol.word w).leafKinds ∧
      construct field t w = .opened kind field leafKind leafField t expect := by
  unfold construct
  split
  · exact ⟨_, _, _, _, by simp [Symbol.leafKinds], rfl⟩
  · split
    · exact ⟨_, _, _, _, by simp [Symbol.leafKinds], rfl⟩
    · split
      · exact ⟨_, _, _, _, by simp [Symbol.leafKinds], rfl⟩
      · exact ⟨_, _, _, _, by simp [Symbol.leafKinds], rfl⟩

lemma effect_construct {w : Text} (hs : t.symbol.starter? = some w) (outer : Expect)
    (field : Option Field) : f.Effect t (f.enter outer (construct field t w)) := by
  obtain ⟨kind, leafKind, leafField, inner, hk, heq⟩ := construct_opened field t w
  rw [heq]
  exact .enter (by rw [(Symbol.starter?_eq_some.1 hs).1]; exact hk)

lemma Rule.effect (hr : f.Rule t m) : f.Effect t m := by
  cases hr with
  | terminator hl hs => exact .take (by obtain hs | hs := hs <;> simp [hs, Symbol.leafKinds])
  | comment hl hs => exact .take (by simp [hs, Symbol.leafKinds])
  | join hl hs | conditionJoin he hs => exact .enter (operator_mem_of_connector hs)
  | dangle hl hs =>
    refine .enter ?_
    obtain hs | ⟨hs, -⟩ := hs
    · simp [hs, Symbol.leafKinds]
    · exact operator_mem_of_connector hs
  | garble hl hs => exact .enter (by simp [hs, Symbol.leafKinds])
  | begin hl hs | condition he hs | conjoined he hs hw | connected he hs | joined he hs =>
    exact effect_construct hs _ _
  | close hl hs hr => exact .take (keyword_mem_of_closing hs)
  | @clause h j c hl hs hr =>
    cases c <;> exact .enter (keyword_mem_of_closing hs)
  | stray hl hs hr => exact .enter (keyword_mem_of_closing hs)
  | functionName he hs | loopName he hs | loopIn he hs | elseIf he hs =>
    exact .take (by simp [hs, Symbol.leafKinds])
  | functionOption he hs | loopItem he hs | headerWord he hs | finalWord he hs =>
    exact .take (by rw [hs]; exact wordKind_mem _)
  | strayWord he hs =>
    exact .take (by rw [(Symbol.starter?_eq_some.1 hs).1]; exact wordKind_mem _)
  | argument he hs => exact .take (by rw [hs]; exact scan_mem _ _)
  | pipe he hs => exact .pipe he hs
  | conjunction he hs =>
    exact .take (by rw [(Symbol.starter?_eq_some.1 hs).1]; simp [Symbol.leafKinds])
  | connector he hs =>
    refine .take ?_
    obtain hs | hs := hs
    · exact operator_mem_of_connector hs
    · simp [hs, Symbol.leafKinds]
  | garbage he hs =>
    exact .take (by obtain hs | ⟨w, hs⟩ := hs <;> simp [hs, Symbol.leafKinds])
  | lineBreak he hs | lineComment he hs | stageBreak he hs | bar he hs =>
    exact .take (by simp [hs, Symbol.leafKinds])
  | staged he hs =>
    exact .enter (by rw [(Symbol.starter?_eq_some.1 hs).1]; simp [Symbol.leafKinds])

/-- In a list of statements only a closing word for a node further out is refused. -/
lemma leaves_of_accept_eq_none {h : Holder} {j : Bool} (hl : f.Lists t h j)
    (hn : f.accept t = none) : ∃ c, t.symbol.closing? = some c ∧ h.role c = .leaves := by
  rw [accept_of_lists hl] at hn
  unfold inStatements at hn
  split at hn <;> try cases hn
  rename_i w hs
  split at hn
  · cases hn
  · rename_i c hc
    split at hn <;> try cases hn
    rename_i hr
    exact ⟨c, by rw [hs]; exact hc, hr⟩

/-- The node is the program, which is never complete before the end of the source. -/
def IsRoot (f : Frame) : Prop :=
  f.kind = .program ∧ f.field = none ∧ ∃ j, f.expect = .statements .program j

lemma IsRoot.add (hf : f.IsRoot) (p : Phrase) : (f.add p).IsRoot := hf

lemma IsRoot.accept_ne_none (hf : f.IsRoot) (t : Terminal) : f.accept t ≠ none := by
  obtain ⟨-, -, j, he⟩ := hf
  intro hn
  have hl : f.Lists t .program j := by rw [Lists, he]; rfl
  obtain ⟨c, -, hr⟩ := leaves_of_accept_eq_none hl hn
  cases c <;> cases hr

lemma IsRoot.move (hf : f.IsRoot) (hr : f.Rule t m) : m.frame.IsRoot := by
  obtain ⟨hk, hfield, j, he⟩ := hf
  have hlist : ∀ {h j'}, f.Lists t h j' → h = .program := by
    intro h j' hl
    rw [Lists, he] at hl
    cases hl
    rfl
  cases hr with
  | terminator hl | comment hl | join hl | dangle hl | garble hl | begin hl | clause hl
  | stray hl =>
    obtain rfl := hlist hl
    exact ⟨hk, hfield, _, rfl⟩
  | @close h j c b hl hs hr =>
    obtain rfl := hlist hl
    cases c <;> cases hr
  | functionName he' | functionOption he' | loopName he' | loopIn he' | loopItem he'
  | headerWord he' | condition he' | conditionJoin he' | elseIf he' | finalWord he'
  | strayWord he' | argument he' | pipe he' | conjunction he' | conjoined he' | connector he'
  | connected he' | garbage he' | lineBreak he' | lineComment he' | joined he' | stageBreak he'
  | staged he' =>
    rw [he] at he'
    cases he'
  | bar he' => simp [he] at he'

end Frame

/-! ## Steps of the stack -/

/-- The outermost of some open nodes is the program. -/
def Rooted : Frame → List Frame → Prop
  | top, [] => top.IsRoot
  | _, next :: below => Rooted next below

lemma Rooted.pop {top next : Frame} {below : List Frame} (h : Rooted top (next :: below))
    (p : Phrase) : Rooted (next.add p) below := by
  cases below with
  | nil => exact Frame.IsRoot.add h p
  | cons next below => exact h

lemma Rooted.ofMove {top : Frame} {below : List Frame} {t : Terminal} {m : Move}
    (h : Rooted top below) (hr : top.Rule t m) :
    Rooted (Stack.ofMove m below).top (Stack.ofMove m below).below := by
  have hframe : Rooted m.frame below := by
    cases below with
    | nil => exact Frame.IsRoot.move h hr
    | cons next below => exact h
  unfold Stack.ofMove
  split
  · exact hframe
  · exact hframe

namespace Stack

section Offer

variable {f g : Frame} {below : List Frame} {t : Terminal} {m : Move}

lemma offer_of_accept (h : f.accept t = some m) : offer t f below = ofMove m below := by
  cases below with
  | nil => rw [offer, h, Option.getD_some]
  | cons g below => rw [offer, h]

lemma offer_of_refuse (h : f.accept t = none) :
    offer t f (g :: below) = offer t (g.add f.phrase) below := by
  rw [offer, h]

end Offer

/-- The outermost open node is the program. -/
def Grounded (s : Stack) : Prop := Rooted s.top s.below

lemma grounded_initial : Grounded .initial := ⟨rfl, rfl, false, rfl⟩

/-- What holds of the open nodes and is kept when one of them is closed turns, when one of them
takes the terminal, into what holds after the step. -/
theorem offer_induction {t : Terminal} {P : Frame → List Frame → Prop} {Q : Stack → Prop}
    (pop : ∀ {top next below}, P top (next :: below) → top.accept t = none →
      P (next.add top.phrase) below)
    (move : ∀ {top below m}, P top below → top.Rule t m → Q (ofMove m below)) :
    ∀ {below : List Frame} {top : Frame}, Rooted top below → P top below → Q (offer t top below)
  | [], top, hroot, hP => by
    obtain ⟨m, hm⟩ := Option.ne_none_iff_exists'.1 (hroot.accept_ne_none t)
    rw [offer, hm]
    exact move hP (Frame.accept_eq_some_iff.1 hm)
  | next :: below, top, hroot, hP => by
    rw [offer]
    cases hm : top.accept t with
    | some m => exact move hP (Frame.accept_eq_some_iff.1 hm)
    | none => exact offer_induction pop move (hroot.pop _) (pop hP hm)

theorem step_induction {s : Stack} {t : Terminal} {P : Frame → List Frame → Prop}
    {Q : Stack → Prop} (hs : s.Grounded) (hP : P s.top s.below)
    (pop : ∀ {top next below}, P top (next :: below) → top.accept t = none →
      P (next.add top.phrase) below)
    (move : ∀ {top below m}, P top below → top.Rule t m → Q (ofMove m below)) : Q (s.step t) :=
  offer_induction pop move hs hP

lemma Grounded.step {s : Stack} (hs : s.Grounded) (t : Terminal) : (s.step t).Grounded :=
  step_induction (P := Rooted) hs hs (fun h _ => h.pop _) Rooted.ofMove

lemma Grounded.foldl {s : Stack} (hs : s.Grounded) (ts : List Terminal) :
    (ts.foldl Stack.step s).Grounded := by
  induction ts generalizing s with
  | nil => exact hs
  | cons t ts ih => exact ih (hs.step t)

end Stack

end FishScript
