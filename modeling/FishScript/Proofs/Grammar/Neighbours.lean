/-
# What stands beside what

What the rules for variables and for code that never runs take for granted about the children of
a node (`arranged_of_mem_preorder`): only a word has the role of a name, only a command defines a
variable, and only one, and in a list of statements nothing but the end of a statement, a further
construct joined to it, an error, a clause or the `end` of the block stands right behind a command.

The last of these is kept by a run because a node is complete only where no construct may begin:
what refuses a word with which one may begin has to wait for something itself, and then it is
behind a node that has refused it before (`Frame.starter?_of_accept_eq_none`).
-/
import Mathlib
import FishScript.Proofs.Grammar.Closing
import FishScript.Proofs.Grammar.Ends
import FishScript.Proofs.Token.Lines

namespace FishScript

/-! ## Children in their places -/

/-- Nodes of the kind are run one behind the other unless something separates or joins them. -/
def NodeKind.isJoinable : NodeKind → Bool
  | .command | .pipeline | .conditionalExecution => true
  | _ => false

namespace Part

/-- The part ends the statement before it, is joined to it, or fits to no statement. -/
def Bounds (source : Text) (p : Part) : Prop :=
  p.kind = .terminator ∨ p.kind = .comment ∨ p.kind = .conditionalExecution ∨ p.kind = .error ∨
    p.kind.isClause = true ∨ p.isEnd source = true

/-- The second part may stand right behind the first. -/
def Precedes (source : Text) (p next : Part) : Prop :=
  (p.kind.isJoinable = true → next.Bounds source) ∧ (p.kind = .comment → next.kind = .terminator)

/-- The part is the variable that a command sets. -/
def isDefinition (p : Part) : Bool := p.kind == .variableDefinition

end Part

/-- The children of a node are in their places: names are words, only a command sets a variable,
and a list of statements is in order. -/
structure Arranged (source : Text) (kind : NodeKind) (ps : List Part) : Prop where
  names : ∀ p ∈ ps, p.field = some .name → p.kind = .word
  definitions : ps.countP Part.isDefinition ≤ if kind = .command then 1 else 0
  neighbours : kind.holdsStatements = true → ps.IsChain (Part.Precedes source)

namespace Phrase

/-- The predicate holds of the kind and the parts of every node in the phrase. -/
inductive Each (P : NodeKind → List Part → Prop) : Phrase → Prop
  /-- A leaf. -/
  | leaf {kind : NodeKind} {field : Option Field} {span : Span} : Each P (.leaf kind field span)
  /-- A node. -/
  | node {kind : NodeKind} {field : Option Field} {children : List Phrase}
      (h : P kind (children.map part)) (hchildren : ∀ p ∈ children, p.Each P) :
      Each P (.node kind field children)

end Phrase

/-! ## Variables that a command sets -/

namespace DefinitionScan

/-- The number of variables that a command has set at most. -/
def room : DefinitionScan → Nat
  | .idle => 1
  | _ => 0

lemma room_step (scan : DefinitionScan) (w : Text) :
    scan.room + (if (scan.step w).1 = .variableDefinition then 1 else 0) ≤
      (scan.step w).2.room := by
  have hword : wordKind w ≠ .variableDefinition := by
    obtain hw | hw := Frame.wordKind_eq w <;> simp [hw]
  unfold step
  split <;> simp [room, hword]

end DefinitionScan

namespace Expect

/-- The number of variables that a node has set at most. -/
def room : Expect → Nat
  | .arguments _ scan => scan.room
  | _ => 0

lemma room_of_holder? {e : Expect} {h : Holder} (he : e.holder? = some h) : e.room = 0 := by
  cases e <;> first | rfl | cases he

end Expect

/-! ## Open nodes -/

namespace Frame

variable {source : Text} {gs : List Span} {f inner outer : Frame} {t : Terminal} {m : Move}

/-- The kind of the last phrase. -/
def lastKind? (f : Frame) : Option NodeKind := f.phrases.head?.map fun p => p.part.kind

lemma getLast?_parts (f : Frame) : f.parts.getLast? = f.phrases.head?.map Phrase.part := by
  rw [parts, List.map_reverse, List.getLast?_reverse, List.head?_map]

/-- What the node holds so far is in its place. -/
structure Arranged (source : Text) (f : Frame) : Prop where
  names : ∀ p ∈ f.parts, p.field = some .name → p.kind = .word
  definitions : f.parts.countP Part.isDefinition ≤ f.expect.room
  neighbours : f.kind.holdsStatements = true → f.parts.IsChain (Part.Precedes source)
  inside : ∀ p ∈ f.phrases, p.Each (FishScript.Arranged source)

/-- The last phrase is a leaf that has just been read, and the node waits for nothing. -/
structure Fresh (f : Frame) : Prop where
  last : ∀ kind ∈ f.lastKind?, kind.isJoinable = false
  nothing : f.expect ≠ .nothing
  bar : f.expect ≠ .bar

/-- Whatever the node becomes, it may stand behind a statement. -/
def Separates (f : Frame) : Prop :=
  f.kind = .conditionalExecution ∨ f.kind.isClause = true ∨
    f.kind = .error ∧ f.expect.holder? = none

/-- In a list of statements `inner` may stand behind the last phrase of the node. -/
def Admits (f inner : Frame) : Prop :=
  f.kind.holdsStatements = true →
    (∀ kind ∈ f.lastKind?, kind.isJoinable = true → inner.Separates) ∧
      f.lastKind? ≠ some .comment

/-! ### Where a node is complete -/

lemma starter?_of_accept_eq_none (hn : f.accept t = none) (hnothing : f.expect ≠ .nothing)
    (hbar : f.expect ≠ .bar) : t.symbol.starter? = none := by
  by_contra hne
  obtain ⟨w, hw⟩ := Option.ne_none_iff_exists'.1 hne
  obtain ⟨hs, hc⟩ := Symbol.starter?_eq_some.1 hw
  cases he : f.expect with
  | nothing => exact hnothing he
  | bar => exact hbar he
  | conjunctions =>
    simp only [accept, he, hw] at hn
    split at hn <;> cases hn
  | elseHead =>
    simp only [accept, he] at hn
    split at hn
    · cases hn
    · simp [inStatements, hs, hc] at hn
  | conditionRest h => simp [accept, he, hs, Symbol.isConnector, inStatements, hc] at hn
  | _ => simp [accept, he, hs, inStatements, hc, Symbol.isConnector, Symbol.starter?] at hn

lemma Separates.bounds (h : f.Separates) (source : Text) : f.phrase.part.Bounds source := by
  rcases h with hk | hk | ⟨hk, -⟩
  · exact .inr (.inr (.inl hk))
  · exact .inr (.inr (.inr (.inr (.inl hk))))
  · exact .inr (.inr (.inr (.inl hk)))

/-- A node that holds no statements will hold none, except in nodes inside it. -/
lemma Rule.holder?_eq_none (hm : f.Rule t m) (hf : f.expect.holder? = none) :
    m.frame.expect.holder? = none := by
  have hlist : ∀ {h j}, ¬ f.Lists t h j := by
    intro h j hl
    rw [Expect.holder?_of_listed? hl] at hf
    cases hf
  cases hm with
  | terminator hl | comment hl | join hl | dangle hl | garble hl | begin hl | close hl | clause hl
  | stray hl => exact absurd hl hlist
  | functionName he | functionOption he | loopName he | loopIn he | loopItem he | headerWord he
  | condition he | conditionJoin he | elseIf he => rw [he] at hf; cases hf
  | _ => rfl

/-- What may stand behind a statement still may when it goes on. -/
lemma Separates.move (h : f.Separates) (hr : f.Ready source gs t) (hm : f.Rule t m) :
    m.frame.Separates := by
  -- the kind changes only where a block is closed, a clause is told, or a command is piped
  have hkeep : m.frame.kind = f.kind → m.frame.Separates := by
    intro hk
    unfold Separates
    rw [hk]
    exact h.imp_right (Or.imp_right (And.imp_right hm.holder?_eq_none))
  cases hm with
  | @close _ _ _ b hl _ hrole =>
    exfalso
    obtain ⟨rfl, rfl⟩ := Holder.role_eq_closes hrole
    obtain ⟨clauses, hfits, -⟩ := hr
    have hholder := Expect.holder?_of_listed? hl
    obtain ⟨hk, -⟩ := Expect.Fits.keeps hfits hholder
    rcases h with hk' | hk' | ⟨-, hnone⟩
    · rw [hk] at hk'
      cases hk'
    · rw [hk] at hk'
      cases hk'
    · rw [hholder] at hnone
      cases hnone
  | elseIf => exact .inr (.inl rfl)
  | pipe he =>
    exfalso
    obtain ⟨-, hk, -⟩ := hr.fits he (by simp)
    rcases h with hk' | hk' | ⟨hk', -⟩ <;> rw [hk] at hk' <;> cases hk'
  | _ => exact hkeep rfl

/-! ### What stands behind a statement -/

/-- Where no word is expected and no construct begins, a list of statements goes on with what may
stand behind a statement. -/
lemma Rule.bounds (hm : f.Rule t m) (hr : f.Ready source gs t) (ht : t.Reads source)
    (hw : f.expect.isWordless = true) (hs : t.symbol.starter? = none)
    (hk : f.kind.holdsStatements = true) :
    (∃ kind leafKind field e, m = { f with kind }.take leafKind field t e ∧
      (Phrase.leaf leafKind field t.span).part.Bounds source) ∨
    ∃ e inner, m = f.enter e inner ∧ inner.Separates := by
  cases hm with
  | terminator => exact .inl ⟨f.kind, _, _, _, rfl, .inl rfl⟩
  | comment => exact .inl ⟨f.kind, _, _, _, rfl, .inr (.inl rfl)⟩
  | join | conditionJoin => exact .inr ⟨_, _, rfl, .inl rfl⟩
  | dangle | garble | stray => exact .inr ⟨_, _, rfl, .inr (.inr ⟨rfl, rfl⟩)⟩
  | @clause _ _ c => exact .inr ⟨_, _, rfl, .inr (.inl (by cases c <;> rfl))⟩
  | @close _ _ c b hl hs' hrole =>
    obtain ⟨rfl, rfl⟩ := Holder.role_eq_closes hrole
    refine .inl ⟨b.kind, _, _, _, rfl, ?_⟩
    exact .inr (.inr (.inr (.inr (.inr (ht.isKeyword (Terminal.closing?_eq_some hs'))))))
  | begin _ hs' | condition _ hs' | strayWord _ hs' | conjunction _ hs' | conjoined _ hs'
  | connected _ hs' | joined _ hs' | staged _ hs' =>
    rw [hs] at hs'
    cases hs'
  | functionName he | functionOption he | loopName he | loopIn he | loopItem he | headerWord he
  | elseIf he | finalWord he | argument he | connector he | garbage he =>
    rw [he] at hw
    cases hw
  | pipe he =>
    rw [he] at hw
    cases hw
  | lineBreak he | lineComment he | stageBreak he =>
    -- what waits after a connector or a bar is no list of statements
    obtain ⟨-, hkind, -⟩ := hr.fits he (by simp)
    rw [hkind] at hk
    cases hk
  | bar he =>
    obtain he | he := he <;>
    · obtain ⟨-, hkind, -⟩ := hr.fits he (by simp)
      rw [hkind] at hk
      cases hk

lemma isJoinable_of_mem_leafKinds {s : Symbol} {kind : NodeKind} (h : kind ∈ s.leafKinds) :
    kind.isJoinable = false := by
  cases kind <;> cases s <;> simp [Symbol.leafKinds] at h <;> rfl

lemma Rule.isJoinable_lastKind? (hm : f.Rule t m) :
    (m.inner? = none → ∀ kind ∈ m.frame.lastKind?, kind.isJoinable = false) ∧
      ∀ inner, m.inner? = some inner → ∀ kind ∈ inner.lastKind?, kind.isJoinable = false := by
  cases hm.effect with
  | take hk =>
    refine ⟨fun _ => ?_, fun inner hi => by cases hi⟩
    rintro kind ⟨⟩
    exact isJoinable_of_mem_leafKinds hk
  | enter hk =>
    refine ⟨fun hi => (by cases hi), fun inner hi => ?_⟩
    cases hi
    rintro kind ⟨⟩
    exact isJoinable_of_mem_leafKinds hk
  | pipe =>
    refine ⟨fun _ => ?_, fun inner hi => by cases hi⟩
    rintro kind ⟨⟩
    rfl

lemma Rule.expect_ne_nothing (hm : f.Rule t m) (hi : m.inner? = none) :
    m.frame.expect ≠ .nothing := by
  cases hm with
  | join | dangle | garble | begin | clause | stray | condition | conditionJoin | conjoined
  | connected | joined | staged => cases hi
  | _ => simp [take, piped]

lemma Rule.inner_expect_ne_nothing (hm : f.Rule t m) (hi : m.inner? = some inner) :
    inner.expect ≠ .nothing := by
  have hconstruct : ∀ {field w}, (construct field t w).expect ≠ .nothing := by
    intro field w
    obtain ⟨b, he⟩ | he | he | ⟨scan, he⟩ := construct_expect field t w
    · cases b <;> simp [he, Block.header]
    all_goals simp [he]
  cases hm with
  | begin | condition | conjoined | connected | joined =>
    cases hi
    exact hconstruct
  | @clause _ _ c =>
    cases hi
    cases c <;> simp [Frame.clause, opened]
  | join | dangle | garble | stray | conditionJoin | staged =>
    cases hi
    simp [joining, dangling, garbled, Frame.stray, command, opened]
  | _ => cases hi

lemma Rule.fresh (hm : f.Rule t m) :
    (m.inner? = none → m.frame.Fresh) ∧ ∀ inner, m.inner? = some inner → inner.Fresh := by
  obtain ⟨hframe, hinner⟩ := hm.isJoinable_lastKind?
  exact ⟨fun hi => ⟨hframe hi, hm.expect_ne_nothing hi, hm.expect_ne_bar hi⟩,
    fun inner hi => ⟨hinner inner hi, hm.inner_expect_ne_nothing hi, (hm.inner hi).2.2⟩⟩

/-! ### Moves -/

lemma Rule.holdsStatements (hm : f.Rule t m) (hr : f.Ready source gs t)
    (hk : m.frame.kind.holdsStatements = true) : f.kind.holdsStatements = true := by
  cases hm with
  | close hl _ hrole =>
    obtain ⟨rfl, rfl⟩ := Holder.role_eq_closes hrole
    obtain ⟨clauses, hfits, -⟩ := hr
    obtain ⟨hkind, -⟩ := Expect.Fits.keeps hfits (Expect.holder?_of_listed? hl)
    rw [hkind]
    rfl
  | elseIf he =>
    obtain ⟨-, hkind, -⟩ := hr.fits he (by simp)
    rw [hkind]
    rfl
  | pipe => cases hk
  | _ => exact hk

/-- What is known of the last phrase when the terminal is offered: a comment is followed by the
end of its line, and a statement is followed by no construct. -/
structure Offers (t : Terminal) (f : Frame) : Prop where
  comment : f.lastKind? = some .comment → t.symbol = .newline
  waiting : f.Fresh ∨ f.expect.isWordless = true ∧ t.symbol.starter? = none

lemma Offers.precedes (h : f.Offers t) (hr : f.Ready source gs t) (ht : t.Reads source)
    (hk : f.kind.holdsStatements = true) {kind leafKind : NodeKind} {field : Option Field}
    {e : Expect} (hm : f.Rule t ({ f with kind }.take leafKind field t e)) :
    ∀ p ∈ f.parts.getLast?, p.Precedes source (Phrase.leaf leafKind field t.span).part := by
  intro p hp
  have hlast : f.lastKind? = some p.kind := by
    rw [getLast?_parts, Option.mem_def, Option.map_eq_some_iff] at hp
    obtain ⟨q, hq, rfl⟩ := hp
    rw [lastKind?, hq]
    rfl
  constructor
  · intro hjoinable
    obtain hfresh | ⟨hwordless, hstarter⟩ := h.waiting
    · rw [hfresh.last p.kind hlast] at hjoinable
      cases hjoinable
    · obtain ⟨_, _, _, _, heq, hbounds⟩ | ⟨_, inner, heq, -⟩ :=
        hm.bounds hr ht hwordless hstarter hk
      · have hphrases := congrArg (fun m => m.frame.phrases) heq
        injection hphrases with hleaf
        rw [hleaf]
        exact hbounds
      · cases congrArg Move.inner? heq
  · intro hcomment
    rw [hcomment] at hlast
    obtain ⟨e', -, -, heq⟩ := hm.terminated (.inr (h.comment hlast))
    have hphrases := congrArg (fun m => m.frame.phrases) heq
    injection hphrases with hleaf
    rw [hleaf]
    rfl

lemma Offers.admits (h : f.Offers t) (hr : f.Ready source gs t) (ht : t.Reads source)
    {e : Expect} (hm : f.Rule t (f.enter e inner)) : (f.enter e inner).frame.Admits inner := by
  intro hk
  constructor
  · intro kind hkind hjoinable
    obtain hfresh | ⟨hwordless, hstarter⟩ := h.waiting
    · rw [hfresh.last kind hkind] at hjoinable
      cases hjoinable
    · obtain ⟨_, _, _, _, heq, -⟩ | ⟨_, inner', heq, hseparates⟩ :=
        hm.bounds hr ht hwordless hstarter hk
      · cases congrArg Move.inner? heq
      · cases congrArg Move.inner? heq
        exact hseparates
  · intro hcomment
    obtain ⟨e', -, -, heq⟩ := hm.terminated (.inr (h.comment hcomment))
    cases congrArg Move.inner? heq

/-- A terminal becomes no name, unless it becomes a word, and sets no variable, unless it becomes
an argument of a command that has set none. -/
structure Labels (e e' : Expect) (kind : NodeKind) (field : Option Field) : Prop where
  name : field = some .name → kind = .word
  room : e.room + (if kind = .variableDefinition then 1 else 0) ≤ e'.room

lemma labels_word {e e' : Expect} {w : Text} {field : Option Field} (hf : field ≠ some .name)
    (he : e.room = 0) : Labels e e' (wordKind w) field := by
  refine ⟨fun h => absurd h hf, ?_⟩
  obtain hw | hw := wordKind_eq w <;> simp [he, hw]

lemma labels_leaf {e e' : Expect} {kind : NodeKind} {field : Option Field}
    (hf : field = some .name → kind = .word) (hk : kind ≠ .variableDefinition)
    (he : e.room = 0) : Labels e e' kind field :=
  ⟨hf, by simp [he, hk]⟩

lemma Rule.labels (hm : f.Rule t m) :
    (∃ kind leafKind field e, m = { f with kind }.take leafKind field t e ∧
      Labels f.expect e leafKind field) ∨
    (∃ kind field leafKind leafField e e',
      m = f.enter e (.opened kind field leafKind leafField t e') ∧
        Labels .nothing e' leafKind leafField ∧ f.expect.room = 0 ∧ e.room = 0) ∨
    m = ⟨f.piped t, none⟩ ∧ ∃ scan, f.expect = .arguments false scan := by
  have hconstruct : ∀ {field w}, ∃ kind field' leafKind leafField e',
      construct field t w = .opened kind field' leafKind leafField t e' ∧
        Labels .nothing e' leafKind leafField := by
    intro field w
    unfold construct
    split
    · exact ⟨_, _, _, _, _, rfl, labels_leaf (by simp) (by simp) rfl⟩
    · split
      · exact ⟨_, _, _, _, _, rfl, labels_leaf (by simp) (by simp) rfl⟩
      · split
        · exact ⟨_, _, _, _, _, rfl, labels_leaf (by simp) (by simp) rfl⟩
        · exact ⟨_, _, _, _, _, rfl, labels_leaf (by simp) (by simp) rfl⟩
  have hlist : ∀ {h j}, f.Lists t h j → f.expect.room = 0 :=
    fun hl => Expect.room_of_holder? (Expect.holder?_of_listed? hl)
  cases hm with
  | terminator hl | comment hl =>
    exact .inl ⟨f.kind, _, _, _, rfl, labels_leaf (by simp) (by simp) (hlist hl)⟩
  | close hl =>
    exact .inl ⟨_, _, _, _, rfl, labels_leaf (by simp) (by simp) (hlist hl)⟩
  | join hl | dangle hl | garble hl | stray hl =>
    exact .inr (.inl ⟨_, _, _, _, _, _, rfl, labels_leaf (by simp) (by simp) rfl, hlist hl, rfl⟩)
  | @clause _ _ c hl =>
    refine .inr (.inl ?_)
    cases c <;>
      exact ⟨_, _, _, _, _, _, rfl, labels_leaf (by simp) (by simp) rfl, hlist hl, rfl⟩
  | begin hl =>
    obtain ⟨_, _, _, _, _, heq, hlabels⟩ := hconstruct
    exact .inr (.inl ⟨_, _, _, _, _, _, by rw [heq], hlabels, hlist hl, rfl⟩)
  | condition he | conjoined he | connected he | joined he =>
    obtain ⟨_, _, _, _, _, heq, hlabels⟩ := hconstruct
    exact .inr (.inl ⟨_, _, _, _, _, _, by rw [heq], hlabels, by rw [he]; rfl, rfl⟩)
  | conditionJoin he | staged he =>
    exact .inr (.inl ⟨_, _, _, _, _, _, rfl, labels_leaf (by simp) (by simp) rfl,
      by rw [he]; rfl, rfl⟩)
  | functionName he | loopName he | loopIn he | elseIf he | conjunction he | connector he
  | garbage he | lineBreak he | lineComment he | stageBreak he =>
    exact .inl ⟨_, _, _, _, rfl, labels_leaf (by simp) (by simp) (by rw [he]; rfl)⟩
  | bar he =>
    refine .inl ⟨_, _, _, _, rfl, labels_leaf (by simp) (by simp) ?_⟩
    obtain he | he := he <;> rw [he] <;> rfl
  | functionOption he | loopItem he | headerWord he | finalWord he | strayWord he =>
    exact .inl ⟨_, _, _, _, rfl, labels_word (by simp) (by rw [he]; rfl)⟩
  | @argument staged scan w he =>
    refine .inl ⟨_, _, _, _, rfl, ⟨by simp, ?_⟩⟩
    rw [he]
    exact scan.room_step w
  | pipe he => exact .inr (.inr ⟨rfl, _, he⟩)

lemma Arranged.phrase (h : f.Arranged source) {clauses : List Part}
    (hf : f.Fits source gs clauses) : f.phrase.Each (FishScript.Arranged source) := by
  refine .node ⟨h.names, ?_, h.neighbours⟩ fun p hp => h.inside p (List.mem_reverse.1 hp)
  refine h.definitions.trans ?_
  split
  case isTrue =>
    rcases he : f.expect with _ | _ | _ | _ | _ | _ | _ | _ | _ | ⟨staged, scan⟩
    case arguments => cases scan <;> simp [Expect.room, DefinitionScan.room]
    all_goals simp [Expect.room]
  case isFalse hk =>
    cases he : f.expect with
    | arguments staged scan =>
      -- only a command has arguments
      rw [Fits, he] at hf
      exact absurd hf.2.1 hk
    | _ => simp [Expect.room]

lemma Arranged.add (h : f.Arranged source) {p : Phrase}
    (hp : p.Each (FishScript.Arranged source)) (hname : p.part.field ≠ some .name)
    (hdefinition : p.part.kind ≠ .variableDefinition)
    (hprecedes : f.kind.holdsStatements = true →
      ∀ q ∈ f.parts.getLast?, q.Precedes source p.part) : (f.add p).Arranged source where
  names := by
    rw [parts_add]
    exact forall_mem_concat h.names fun hf => absurd hf hname
  definitions := by
    have hpart : p.part.isDefinition = false := by simpa [Part.isDefinition] using hdefinition
    rw [parts_add, List.countP_append, List.countP_singleton, hpart]
    exact h.definitions
  neighbours hk := by
    rw [parts_add]
    refine List.isChain_append.2 ⟨h.neighbours hk, List.isChain_singleton _, ?_⟩
    rintro q hq _ ⟨⟩
    exact hprecedes hk q hq
  inside := List.forall_mem_cons.2 ⟨hp, h.inside⟩

lemma Arranged.take (h : f.Arranged source) {kind leafKind : NodeKind} {field : Option Field}
    {e : Expect} (hlabels : Labels f.expect e leafKind field)
    (hk : kind.holdsStatements = true → f.kind.holdsStatements = true ∧
      ∀ p ∈ f.parts.getLast?, p.Precedes source (Phrase.leaf leafKind field t.span).part) :
    ({ f with kind }.take leafKind field t e).frame.Arranged source where
  names := by
    show ∀ p ∈ (f.add _).parts, _
    rw [parts_add]
    exact forall_mem_concat h.names hlabels.name
  definitions := by
    show (f.add (.leaf leafKind field t.span)).parts.countP _ ≤ e.room
    rw [parts_add, List.countP_append, List.countP_singleton]
    refine le_trans (Nat.add_le_add_right h.definitions _) ?_
    simpa [Part.isDefinition, Phrase.part] using hlabels.room
  neighbours hk' := by
    show (f.add _).parts.IsChain _
    obtain ⟨hf, hlast⟩ := hk hk'
    rw [parts_add]
    refine List.isChain_append.2 ⟨h.neighbours hf, List.isChain_singleton _, ?_⟩
    rintro q hq _ ⟨⟩
    exact hlast q hq
  inside := List.forall_mem_cons.2 ⟨.leaf, h.inside⟩

lemma arranged_opened {kind leafKind : NodeKind} {field leafField : Option Field} {e : Expect}
    (hlabels : Labels .nothing e leafKind leafField) :
    (opened kind field leafKind leafField t e).Arranged source where
  names := List.forall_mem_singleton.2 hlabels.name
  definitions := by
    have hroom := hlabels.room
    rw [show Expect.nothing.room = 0 from rfl, Nat.zero_add] at hroom
    simpa [parts, opened, Part.isDefinition, Phrase.part, List.countP_singleton] using hroom
  neighbours _ := List.isChain_singleton _
  inside := List.forall_mem_singleton.2 .leaf

theorem Arranged.move (h : f.Arranged source) (hr : f.Ready source gs t) (ht : t.Reads source)
    (hoffers : f.Offers t) (hm : f.Rule t m) :
    m.frame.Arranged source ∧ ∀ inner, m.inner? = some inner → inner.Arranged source := by
  obtain ⟨kind, leafKind, field, e, rfl, hlabels⟩ |
    ⟨kind, field, leafKind, leafField, e, e', rfl, hlabels, hroom, hroom'⟩ | ⟨rfl, scan, he⟩ :=
      hm.labels
  · refine ⟨h.take hlabels fun hk => ?_, fun inner hi => by cases hi⟩
    have hf := hm.holdsStatements hr hk
    exact ⟨hf, hoffers.precedes hr ht hf hm⟩
  · refine ⟨⟨h.names, ?_, h.neighbours, h.inside⟩, fun inner hi => ?_⟩
    · show f.parts.countP _ ≤ e.room
      rw [hroom', ← hroom]
      exact h.definitions
    · cases hi
      exact arranged_opened hlabels
  · -- the command before the bar is complete
    obtain ⟨clauses, hfits, -⟩ := id hr
    have hcommand := h.phrase hfits
    have hkind : f.kind = .command := (hr.fits he (by simp)).2.1
    rw [Frame.phrase, hkind] at hcommand
    have hinside : (Phrase.node .command none f.phrases.reverse).Each
        (FishScript.Arranged source) := by
      cases hcommand with
      | node hnode hchildren => exact .node hnode hchildren
    refine ⟨⟨?_, ?_, fun hk => (by cases hk), ?_⟩, fun inner hi => by cases hi⟩
    · simp [piped, parts, Phrase.part]
    · simp [piped, parts, Phrase.part, Part.isDefinition]
    · exact List.forall_mem_cons.2 ⟨.leaf, List.forall_mem_singleton.2 hinside⟩

end Frame

/-! ## Runs -/

namespace Expect

variable {source : Text} {gs : List Span} {clauses ps : List Part} {kind : NodeKind} {e : Expect}

lemma Fits.isLeaf_eq_false (hf : e.Fits source gs clauses kind ps) : kind.isLeaf = false := by
  cases he : e.holder? with
  | some h =>
    have hkeeps := hf.keeps he
    cases h <;> rw [hkeeps.1] <;> rfl
  | none =>
    cases e with
    | finalWords =>
      obtain ⟨-, ⟨b, rfl, -⟩ | ⟨rfl, -⟩⟩ := hf
      · cases b <;> rfl
      · rfl
    | nothing => obtain ⟨-, ⟨rfl, -⟩ | ⟨rfl, -⟩⟩ := hf <;> rfl
    | strayWords | garbage | connectors | conjunctions | joined | stage | bar | arguments =>
      rw [hf.2.1]
      rfl
    | _ => cases he

lemma Awaits.field_ne_name {field : Option Field} {clauseOf? : Option Block}
    (h : e.Awaits source kind ps field clauseOf?) : field ≠ some .name := by
  cases clauseOf? with
  | some b =>
    obtain ⟨-, rfl, -⟩ := h
    simp
  | none =>
    cases e with
    | statements | nothing | bar =>
      rw [h.1]
      simp
    | conditionRest =>
      rw [h.1]
      simp
    | _ => exact h.elim

end Expect

lemma Frame.Arranged.addInner {source : Text} {gs : List Span} {clauses : List Part}
    {inner outer : Frame} (houter : outer.Arranged source) (hinner : inner.Arranged source)
    (hadmits : outer.Admits inner) (hawaits : outer.Awaits source inner)
    (hfits : inner.Fits source gs clauses) : (outer.add inner.phrase).Arranged source := by
  refine houter.add (hinner.phrase hfits) hawaits.field_ne_name ?_ ?_
  · intro hk
    have hleaf : inner.kind.isLeaf = false := hfits.isLeaf_eq_false
    rw [show inner.kind = .variableDefinition from hk] at hleaf
    cases hleaf
  · intro hk q hq
    rw [getLast?_parts, Option.mem_def, Option.map_eq_some_iff] at hq
    obtain ⟨p, hp, rfl⟩ := hq
    have hlast : outer.lastKind? = some p.part.kind := by
      rw [lastKind?, hp]
      rfl
    obtain ⟨hjoinable, hcomment⟩ := hadmits hk
    refine ⟨fun hj => (hjoinable _ hlast hj).bounds source, fun hc => ?_⟩
    rw [hc] at hlast
    exact absurd hlast hcomment

namespace Stack

variable {source : Text} {gs : List Span} {t : Terminal}

/-- What is known of the open nodes when a terminal is offered to the innermost. -/
structure Arranged (source : Text) (t : Terminal) (top : Frame) (below : List Frame) : Prop where
  arranged : ∀ f ∈ top :: below, f.Arranged source
  admits : (top :: below).IsChain fun inner outer => outer.Admits inner
  offers : top.Offers t

lemma Arranged.pop {top next : Frame} {below : List Frame}
    (h : Arranged source t top (next :: below)) (ho : Offered source gs t top (next :: below))
    (hn : top.accept t = none) : Arranged source t (next.add top.phrase) below := by
  obtain ⟨htop, hrest⟩ := List.forall_mem_cons.1 h.arranged
  obtain ⟨hnext, hbelow⟩ := List.forall_mem_cons.1 hrest
  obtain ⟨hadmits, hchain⟩ := List.isChain_cons_cons.1 h.admits
  have hawaits := ho.chained.2.1
  obtain ⟨clauses, hfits, -⟩ := id ho.ready
  have hstarter : t.symbol.starter? = none := by
    obtain hfresh | ⟨-, hstarter⟩ := h.offers.waiting
    · exact Frame.starter?_of_accept_eq_none hn hfresh.nothing hfresh.bar
    · exact hstarter
  refine ⟨List.forall_mem_cons.2 ⟨hnext.addInner htop hadmits hawaits hfits, hbelow⟩, ?_, ?_, ?_⟩
  · -- the node around it has become another one, but what it may stand behind is the same
    cases below with
    | nil => exact List.isChain_singleton _
    | cons next' below =>
      obtain ⟨hadmits', hchain'⟩ := List.isChain_cons_cons.1 hchain
      exact List.isChain_cons_cons.2 ⟨hadmits', hchain'⟩
  · intro hc
    have hleaf : top.kind.isLeaf = false := hfits.isLeaf_eq_false
    rw [show top.kind = .comment from Option.some_injective _ hc] at hleaf
    cases hleaf
  · exact .inr ⟨hawaits.isWordless, hstarter⟩

/-- Everything is in its place after the terminals `done`. -/
structure AllArranged (source : Text) (done : List Terminal) (s : Stack) : Prop where
  arranged : ∀ f ∈ s.top :: s.below, f.Arranged source
  admits : (s.top :: s.below).IsChain fun inner outer => outer.Admits inner
  fresh : s.top.Fresh
  comment : s.top.lastKind? = some .comment → ∃ t ∈ done.getLast?, t.symbol = .comment

lemma allArranged_initial : AllArranged source [] .initial where
  arranged := List.forall_mem_singleton.2
    ⟨List.forall_mem_nil _, Nat.le_refl 0, fun _ => .nil, List.forall_mem_nil _⟩
  admits := List.isChain_singleton _
  fresh := ⟨fun _ h => (by cases h), by simp [Stack.initial], by simp [Stack.initial]⟩
  comment h := by cases h

lemma symbol_of_lastKind? {f : Frame} {m : Move} (hm : f.Rule t m) :
    (m.inner? = none → m.frame.lastKind? = some .comment → t.symbol = .comment) ∧
      ∀ inner, m.inner? = some inner → inner.lastKind? = some .comment → t.symbol = .comment := by
  have hleaf : ∀ {kind : NodeKind}, kind ∈ t.symbol.leafKinds → some kind = some .comment →
      t.symbol = .comment := by
    intro kind hk hc
    rw [Option.some_inj.1 hc] at hk
    cases hs : t.symbol <;> simp [hs, Symbol.leafKinds] at hk ⊢
  cases hm.effect with
  | take hk => exact ⟨fun _ => hleaf hk, fun inner hi => by cases hi⟩
  | enter hk =>
    refine ⟨fun hi => (by cases hi), fun inner hi => ?_⟩
    cases hi
    exact hleaf hk
  | pipe => exact ⟨fun _ hc => (by cases hc), fun inner hi => by cases hi⟩

lemma Arranged.ofMove {top : Frame} {below : List Frame} {m : Move} {done : List Terminal}
    (h : Arranged source t top below) (hr : top.Ready source gs t) (ht : t.Reads source)
    (hm : top.Rule t m) : AllArranged source (done ++ [t]) (ofMove m below) := by
  obtain ⟨htop, hbelow⟩ := List.forall_mem_cons.1 h.arranged
  obtain ⟨hframe, hinner⟩ := htop.move hr ht h.offers hm
  obtain ⟨hfresh, hfresh'⟩ := hm.fresh
  obtain ⟨hcomment, hcomment'⟩ := symbol_of_lastKind? hm
  have hadmits : (m.frame :: below).IsChain fun inner outer => outer.Admits inner := by
    cases below with
    | nil => exact List.isChain_singleton _
    | cons next below =>
      obtain ⟨hnext, hchain⟩ := List.isChain_cons_cons.1 h.admits
      refine List.isChain_cons_cons.2 ⟨fun hk => ?_, hchain⟩
      obtain ⟨hjoinable, hlast⟩ := hnext hk
      exact ⟨fun kind hkind hj => (hjoinable kind hkind hj).move hr hm, hlast⟩
  unfold Stack.ofMove
  cases hi : m.inner? with
  | none =>
    exact ⟨List.forall_mem_cons.2 ⟨hframe, hbelow⟩, hadmits, hfresh hi,
      fun hc => ⟨t, by simp, hcomment hi hc⟩⟩
  | some inner =>
    refine ⟨List.forall_mem_cons.2 ⟨hinner inner hi, List.forall_mem_cons.2 ⟨hframe, hbelow⟩⟩,
      List.isChain_cons_cons.2 ⟨?_, hadmits⟩, hfresh' inner hi,
      fun hc => ⟨t, by simp, hcomment' inner hi hc⟩⟩
    obtain ⟨frame, inner?⟩ := m
    obtain rfl : inner? = some inner := hi
    cases hm.effect with
    | enter hk => exact h.offers.admits hr ht hm

lemma AllArranged.step {s : Stack} {done : List Terminal} (hs : s.Steady source gs)
    (ht : t.Reads source) (hlines : ∀ u ∈ done.getLast?, EndsComment u t)
    (h : AllArranged source done s) : AllArranged source (done ++ [t]) (s.step t) := by
  have hoffers : s.top.Offers t := by
    refine ⟨fun hc => ?_, .inl h.fresh⟩
    obtain ⟨u, hu, hcomment⟩ := h.comment hc
    exact hlines u hu hcomment
  exact hs.step_induction (P := Arranged source t) (Q := AllArranged source (done ++ [t]))
    ⟨h.arranged, h.admits, hoffers⟩ (fun ho hn h => h.pop ho hn)
    (fun ho hm h => h.ofMove ho.ready ht hm)

lemma AllArranged.close {below : List Frame} {top : Frame} {clauses : List Part}
    (hf : top.Fits source gs clauses) (hc : Chained source gs top below)
    (h : ∀ f ∈ top :: below, f.Arranged source)
    (hadmits : (top :: below).IsChain fun inner outer => outer.Admits inner) :
    (Stack.close top below).Each (FishScript.Arranged source) := by
  induction below generalizing top clauses with
  | nil => exact (h top List.mem_cons_self).phrase hf
  | cons next below ih =>
    obtain ⟨htop, hrest⟩ := List.forall_mem_cons.1 h
    obtain ⟨hnext, hbelow⟩ := List.forall_mem_cons.1 hrest
    obtain ⟨hinner, hchain⟩ := List.isChain_cons_cons.1 hadmits
    obtain ⟨clauses', hf', -⟩ := hc.2.1.add gs
    refine ih hf' (hc.pop hf)
      (List.forall_mem_cons.2 ⟨hnext.addInner htop hinner hc.2.1 hf, hbelow⟩) ?_
    cases below with
    | nil => exact List.isChain_singleton _
    | cons next' below =>
      obtain ⟨houter, hchain'⟩ := List.isChain_cons_cons.1 hchain
      exact List.isChain_cons_cons.2 ⟨houter, hchain'⟩

end Stack

/-- In the phrase of terminals everything is in its place, if comments end with their lines. -/
theorem parseTerminals_arranged {source : Text} {gs : List Span} {ts : List Terminal}
    (hts : ∀ t ∈ ts, t.Reads source ∧ t.Known gs) (hlines : ts.IsChain EndsComment) :
    (parseTerminals ts).Each (Arranged source) := by
  have hline : ∀ {done : List Terminal} {t : Terminal}, done ++ [t] <+: ts →
      ∀ u ∈ done.getLast?, EndsComment u t := by
    intro done t hp u hu
    have hchain : (done ++ [t]).IsChain EndsComment := List.IsChain.prefix hlines hp
    obtain ⟨-, -, hnext⟩ := List.isChain_append.1 hchain
    exact hnext u hu t rfl
  have hsteady := Stack.Steady.foldl hts
  have h := Stack.Steady.run_induction_of_prefix
    (I := Stack.AllArranged source) Stack.allArranged_initial
    (fun {s done t} hp hs ht _ h => h.step hs ht (hline hp)) hts
  exact Stack.AllArranged.close hsteady.settled.wellShaped.1 hsteady.settled.wellShaped.2
    h.arranged h.admits

/-! ## Trees -/

mutual

/-- What holds of every node in a phrase holds of the nodes of the tree that have children. -/
theorem Phrase.Each.plant {P : NodeKind → List Part → Prop} : ∀ {p : Phrase} (id cursor : Nat),
    p.Each P → p.Full → ∀ n ∈ (p.plant id cursor).preorder, n.children = [] ∨ P n.kind n.parts
  | .leaf kind field span, id, cursor, _, _, n, hn => by
    rw [List.mem_singleton.1 hn]
    exact .inl rfl
  | .node kind field children, id, cursor, .node h hchildren, .node hne hfull, n, hn => by
    rcases List.mem_cons.1 hn with rfl | hn
    · right
      show P kind ((plantAll (id + 1) cursor children).map Node.part)
      rw [map_part_plantAll hfull]
      exact h
    · exact each_plantAll (id + 1) cursor hchildren hfull n hn

theorem each_plantAll {P : NodeKind → List Part → Prop} : ∀ {ps : List Phrase} (id cursor : Nat),
    (∀ p ∈ ps, p.Each P) → (∀ p ∈ ps, p.Full) →
      ∀ n ∈ preorderAll (plantAll id cursor ps), n.children = [] ∨ P n.kind n.parts
  | p :: ps, id, cursor, h, hfull, n, hn => by
    obtain ⟨hp, hps⟩ := List.forall_mem_cons.1 h
    obtain ⟨hfullp, hfullps⟩ := List.forall_mem_cons.1 hfull
    rcases List.mem_append.1 hn with hn | hn
    · exact hp.plant id cursor hfullp n hn
    · exact each_plantAll _ _ hps hfullps n hn

end

/-- What holds of every node in the phrase of a source holds of the nodes of its tree that have
children. -/
lemma Phrase.Each.rootOf {P : NodeKind → List Part → Prop} {source : Text}
    (h : (parseTerminals (limited source)).Each P) :
    ∀ n ∈ (rootOf source).preorder, n.children = [] ∨ P n.kind n.parts := by
  intro n hn
  obtain ⟨children, heq, hfull, -⟩ := parseTerminals_leaves (limited source)
  rw [heq] at h
  obtain _ | ⟨hnode, hchildren⟩ := h
  rw [FishScript.rootOf, heq] at hn
  rcases List.mem_cons.1 hn with rfl | hn
  · -- the program may be empty
    right
    show P .program ((plantAll 1 0 children).map Node.part)
    rw [map_part_plantAll hfull]
    exact hnode
  · exact each_plantAll 1 0 hchildren hfull n hn

lemma arranged_nil (source : Text) (kind : NodeKind) : Arranged source kind [] :=
  ⟨List.forall_mem_nil _, Nat.zero_le _, fun _ => .nil⟩

theorem arranged_of_mem_preorder {source : Text} {n : Node} (hn : n ∈ (rootOf source).preorder) :
    Arranged source n.kind n.parts := by
  have hknown : ∀ t ∈ limited source, t.Reads source ∧ t.Known (garbagePlaces source) :=
    fun t ht => known_of_mem_limited ht
  have harranged := parseTerminals_arranged hknown (endsComments_limitNesting source)
  obtain hnone | h := harranged.rootOf n hn
  · rw [Node.parts, hnone]
    exact arranged_nil source n.kind
  · exact h

end FishScript
