/-
# Where the word `end` is a keyword

A keyword `end` closes a block or stands in an error node, and in no other node. Besides, what
stands for a terminal and what holds other nodes have different kinds.
-/
import Mathlib
import FishScript.Proofs.Grammar.Runs

namespace FishScript

namespace NodeKind

/-- Nodes of the kind stand for single terminals. -/
def isLeaf : NodeKind → Bool
  | .word | .option | .variableDefinition | .keyword | .operator | .terminator | .comment => true
  | _ => false

end NodeKind

lemma Symbol.isLeaf_of_mem_leafKinds {s : Symbol} {kind : NodeKind} (h : kind ∈ s.leafKinds) :
    kind.isLeaf = true := by
  cases kind <;> cases s <;> simp [Symbol.leafKinds] at h <;> rfl

/-- The kind is one of nodes that hold others, and only in a block or an error node a part closes
a block. -/
structure EndsPlaced (source : Text) (kind : NodeKind) (ps : List Part) : Prop where
  inner : kind.isLeaf = false
  free : (∀ b : Block, kind ≠ b.kind) → kind ≠ .error → ∀ p ∈ ps, p.isEnd source = false

/-- The nodes in a phrase are of the kinds of such nodes, and hold the keyword `end` only where it
belongs. -/
inductive Phrase.EndsPlaced (source : Text) : Phrase → Prop
  /-- A leaf. -/
  | leaf {kind : NodeKind} {field : Option Field} {span : Span} (hk : kind.isLeaf = true) :
      EndsPlaced source (.leaf kind field span)
  /-- A node. -/
  | node {kind : NodeKind} {field : Option Field} {children : List Phrase}
      (h : FishScript.EndsPlaced source kind (children.map part))
      (hchildren : ∀ p ∈ children, p.EndsPlaced source) :
      EndsPlaced source (.node kind field children)

namespace Frame

variable {source : Text} {gs : List Span} {f : Frame} {t : Terminal} {m : Move}

/-- What the node holds so far is placed well. -/
def EndsPlaced (source : Text) (f : Frame) : Prop :=
  FishScript.EndsPlaced source f.kind f.parts ∧ ∀ p ∈ f.phrases, p.EndsPlaced source

lemma EndsPlaced.phrase (h : f.EndsPlaced source) : f.phrase.EndsPlaced source :=
  .node h.1 fun p hp => h.2 p (List.mem_reverse.1 hp)

lemma EndsPlaced.add (h : f.EndsPlaced source) {p : Phrase} (hp : p.EndsPlaced source)
    (he : p.part.isEnd source = false) : (f.add p).EndsPlaced source := by
  refine ⟨⟨h.1.inner, fun hb hk => ?_⟩, List.forall_mem_cons.2 ⟨hp, h.2⟩⟩
  rw [parts_add]
  exact forall_mem_concat (h.1.free hb hk) he

/-- A node that takes a leaf may change its kind to that of a block, to whose parts nothing
applies, or to another one without a block. -/
lemma EndsPlaced.take (h : f.EndsPlaced source) {kind leafKind : NodeKind} {field : Option Field}
    {expect : Expect} (hleaf : leafKind ∈ t.symbol.leafKinds) (hkind : kind.isLeaf = false)
    (hfree : (∀ b : Block, kind ≠ b.kind) → kind ≠ .error →
      (∀ p ∈ f.parts, p.isEnd source = false) ∧
        (Phrase.leaf leafKind field t.span).part.isEnd source = false) :
    ({ f with kind }.take leafKind field t expect).frame.EndsPlaced source := by
  refine ⟨⟨hkind, fun hb hk => ?_⟩,
    List.forall_mem_cons.2 ⟨.leaf (Symbol.isLeaf_of_mem_leafKinds hleaf), h.2⟩⟩
  obtain ⟨hparts, hlast⟩ := hfree hb hk
  show ∀ p ∈ (f.add (.leaf leafKind field t.span)).parts, _
  rw [parts_add]
  exact forall_mem_concat hparts hlast

lemma endsPlaced_opened {kind leafKind : NodeKind} {field leafField : Option Field}
    {expect : Expect} (hleaf : leafKind ∈ t.symbol.leafKinds) (hkind : kind.isLeaf = false)
    (hend : kind ≠ .error → (Phrase.leaf leafKind leafField t.span).part.isEnd source = false) :
    (opened kind field leafKind leafField t expect).EndsPlaced source :=
  ⟨⟨hkind, fun _ hk => List.forall_mem_singleton.2 (hend hk)⟩,
    List.forall_mem_singleton.2 (.leaf (Symbol.isLeaf_of_mem_leafKinds hleaf))⟩

lemma isEnd_starter (ht : t.Reads source) {w : Text} (hs : t.symbol.starter? = some w) :
    (Phrase.leaf .keyword none t.span).part.isEnd source = false := by
  obtain ⟨hs, hw⟩ := Symbol.starter?_eq_some.1 hs
  refine Part.isEnd_eq_false_of_isKeyword (ht.isKeyword hs) ?_
  rintro rfl
  cases hw

lemma endsPlaced_construct (ht : t.Reads source) {w : Text} (hs : t.symbol.starter? = some w)
    (field : Option Field) : (construct field t w).EndsPlaced source := by
  have hword := (Symbol.starter?_eq_some.1 hs).1
  have hleaf : ∀ {kind : NodeKind}, kind ∈ (Symbol.word w).leafKinds → kind ∈ t.symbol.leafKinds :=
    fun h => hword ▸ h
  have hkeyword := isEnd_starter ht hs
  unfold construct
  split
  · exact endsPlaced_opened (hleaf (by simp [Symbol.leafKinds])) rfl fun _ => hkeyword
  · split
    · exact endsPlaced_opened (hleaf (by simp [Symbol.leafKinds])) rfl fun _ => hkeyword
    · split
      · exact endsPlaced_opened (hleaf (by simp [Symbol.leafKinds])) rfl fun _ => hkeyword
      · exact endsPlaced_opened (hleaf (by simp [Symbol.leafKinds])) rfl
          fun _ => isEnd_leaf (by simp)

lemma scan_ne_keyword (scan : DefinitionScan) (w : Text) : (scan.step w).1 ≠ .keyword := by
  unfold DefinitionScan.step
  split <;> simp only [ne_eq, reduceCtorEq, not_false_eq_true]
  obtain hw | hw := wordKind_eq w <;> simp [hw]

theorem EndsPlaced.move (h : f.EndsPlaced source) (hr : f.Ready source gs t) (ht : t.Reads source)
    (hm : f.Rule t m) :
    m.frame.EndsPlaced source ∧ ∀ inner, m.inner? = some inner → inner.EndsPlaced source := by
  -- a node that keeps its kind takes a leaf that closes nothing
  have htake : ∀ {leafKind : NodeKind} {field : Option Field} {expect : Expect},
      leafKind ∈ t.symbol.leafKinds →
      (Phrase.leaf leafKind field t.span).part.isEnd source = false →
      (f.take leafKind field t expect).frame.EndsPlaced source ∧
        ∀ inner, (f.take leafKind field t expect).inner? = some inner → inner.EndsPlaced source :=
    fun hleaf hend =>
      ⟨h.take hleaf h.1.inner fun hb hk => ⟨h.1.free hb hk, hend⟩, fun _ hi => by cases hi⟩
  have henter : ∀ {expect : Expect} {inner : Frame}, inner.EndsPlaced source →
      (f.enter expect inner).frame.EndsPlaced source ∧
        ∀ inner', (f.enter expect inner).inner? = some inner' → inner'.EndsPlaced source := by
    intro expect inner hinner
    refine ⟨h, fun inner' hi => ?_⟩
    cases hi
    exact hinner
  have hword : ∀ {w : Text}, t.symbol = .word w → wordKind w ∈ t.symbol.leafKinds :=
    fun hs => hs ▸ wordKind_mem _
  cases hm with
  | terminator hl hs =>
    exact htake (by obtain hs | hs := hs <;> simp [hs, Symbol.leafKinds]) (isEnd_leaf (by simp))
  | comment hl hs => exact htake (by simp [hs, Symbol.leafKinds]) (isEnd_leaf (by simp))
  | join hl hs | conditionJoin he hs =>
    exact henter (endsPlaced_opened (operator_mem_of_connector hs) rfl
      fun _ => isEnd_leaf (by simp))
  | dangle hl hs =>
    have hleaf : NodeKind.operator ∈ t.symbol.leafKinds := by
      obtain hs | ⟨hs, -⟩ := hs
      · simp [hs, Symbol.leafKinds]
      · exact operator_mem_of_connector hs
    exact henter (endsPlaced_opened hleaf rfl fun _ => isEnd_leaf (by simp))
  | garble hl hs =>
    exact henter (endsPlaced_opened (by simp [hs, Symbol.leafKinds]) rfl
      fun _ => isEnd_leaf (by simp))
  | begin hl hs | condition he hs | conjoined he hs hw | connected he hs | joined he hs =>
    exact henter (endsPlaced_construct ht hs _)
  | @close _ _ _ b hl hs hrole =>
    refine ⟨h.take (keyword_mem_of_closing hs) (by cases b <;> rfl) fun hb => ?_,
      fun _ hi => by cases hi⟩
    exact absurd rfl (hb b)
  | @clause _ _ c hl hs hrole =>
    refine henter ?_
    have hend : c ≠ .blockEnd →
        (Phrase.leaf .keyword none t.span).part.isEnd source = false := by
      intro hc
      refine Part.isEnd_eq_false_of_isKeyword (ht.isKeyword (Terminal.closing?_eq_some hs)) ?_
      cases c <;> simp_all [Closing.word]
    cases c with
    | blockEnd =>
      obtain ⟨b, rfl⟩ := Holder.role_eq_beginsClause hrole
      cases hrole
    | elseBranch | nextCase =>
      exact endsPlaced_opened (keyword_mem_of_closing hs) rfl fun _ => hend (by simp)
  | stray hl hs hrole =>
    exact henter (endsPlaced_opened (keyword_mem_of_closing hs) rfl fun hk => absurd rfl hk)
  | functionName he hs | loopName he hs =>
    exact htake (by simp [hs, Symbol.leafKinds]) (isEnd_leaf (by simp))
  | functionOption he hs | loopItem he hs | headerWord he hs | finalWord he hs =>
    exact htake (hword hs) (isEnd_word _)
  | strayWord he hs => exact htake (hword (Symbol.starter?_eq_some.1 hs).1) (isEnd_word _)
  | loopIn he hs =>
    exact htake (by simp [hs, Symbol.leafKinds])
      (Part.isEnd_eq_false_of_isKeyword (ht.isKeyword hs) (by decide))
  | elseIf he hs =>
    obtain ⟨-, hkind, -⟩ := hr.fits he (by simp)
    refine ⟨h.take (by simp [hs, Symbol.leafKinds]) rfl fun _ _ => ⟨?_, ?_⟩,
      fun _ hi => by cases hi⟩
    · exact h.1.free (hkind ▸ Block.ne_kind rfl) (by simp [hkind])
    · exact Part.isEnd_eq_false_of_isKeyword (ht.isKeyword hs) (by decide)
  | argument he hs =>
    exact htake (hs ▸ scan_mem _ _) (isEnd_leaf (scan_ne_keyword _ _))
  | pipe he hs =>
    obtain ⟨-, hkind, -⟩ := hr.fits he (by simp)
    refine ⟨⟨⟨rfl, fun _ _ => ?_⟩, ?_⟩, fun _ hi => by cases hi⟩
    · simp [piped, parts, Phrase.part, Part.isEnd, Part.isKeyword]
    · refine List.forall_mem_cons.2 ⟨.leaf rfl, List.forall_mem_singleton.2 ?_⟩
      have hphrase := h.phrase
      rw [Frame.phrase, hkind] at hphrase
      obtain hphrase | ⟨hplaced, hchildren⟩ := hphrase
      exact .node hplaced hchildren
  | conjunction he hs hw =>
    have hs' := (Symbol.starter?_eq_some.1 hs).1
    exact htake (by simp [hs', Symbol.leafKinds]) (isEnd_starter ht hs)
  | connector he hs =>
    refine htake ?_ (isEnd_leaf (by simp))
    obtain hs | hs := hs
    · exact operator_mem_of_connector hs
    · simp [hs, Symbol.leafKinds]
  | garbage he hs =>
    exact htake (by obtain hs | ⟨w, hs⟩ := hs <;> simp [hs, Symbol.leafKinds])
      (isEnd_leaf (by simp))
  | lineBreak he hs | lineComment he hs | stageBreak he hs | bar he hs =>
    exact htake (by simp [hs, Symbol.leafKinds]) (isEnd_leaf (by simp))
  | staged he hs =>
    have hs' := (Symbol.starter?_eq_some.1 hs).1
    exact henter (endsPlaced_opened (by simp [hs', Symbol.leafKinds]) rfl
      fun _ => isEnd_leaf (by simp))

end Frame

/-! ## Runs -/

namespace Stack

variable {source : Text} {gs : List Span} {t : Terminal}

/-- All open nodes hold what they hold where it belongs. -/
def EndsPlaced (source : Text) (fs : List Frame) : Prop := ∀ f ∈ fs, f.EndsPlaced source

lemma EndsPlaced.pop {top next : Frame} {below : List Frame}
    (h : EndsPlaced source (top :: next :: below)) :
    EndsPlaced source (next.add top.phrase :: below) := by
  obtain ⟨htop, hrest⟩ := List.forall_mem_cons.1 h
  obtain ⟨hnext, hbelow⟩ := List.forall_mem_cons.1 hrest
  refine List.forall_mem_cons.2 ⟨hnext.add htop.phrase ?_, hbelow⟩
  simp [Frame.part_phrase, Part.isEnd, Part.isKeyword]

lemma EndsPlaced.step {s : Stack} (hs : s.Steady source gs) (ht : t.Reads source)
    (h : EndsPlaced source (s.top :: s.below)) :
    EndsPlaced source ((s.step t).top :: (s.step t).below) := by
  refine hs.step_induction (P := fun top below => EndsPlaced source (top :: below))
    (Q := fun s => EndsPlaced source (s.top :: s.below)) h (fun _ _ h => h.pop) ?_
  intro top below m hoffered hm h
  obtain ⟨htop, hbelow⟩ := List.forall_mem_cons.1 h
  obtain ⟨hframe, hinner⟩ := htop.move hoffered.ready ht hm
  unfold ofMove
  cases hi : m.inner? with
  | none => exact List.forall_mem_cons.2 ⟨hframe, hbelow⟩
  | some inner =>
    exact List.forall_mem_cons.2 ⟨hinner inner hi, List.forall_mem_cons.2 ⟨hframe, hbelow⟩⟩

lemma EndsPlaced.close {below : List Frame} {top : Frame} (h : EndsPlaced source (top :: below)) :
    (Stack.close top below).EndsPlaced source := by
  induction below generalizing top with
  | nil => exact (h top (by simp)).phrase
  | cons next below ih => exact ih h.pop

end Stack

/-- In the phrase of some terminals every `end` is placed well. -/
theorem parseTerminals_endsPlaced {source : Text} {gs : List Span} {ts : List Terminal}
    (hts : ∀ t ∈ ts, t.Reads source ∧ t.Known gs) : (parseTerminals ts).EndsPlaced source := by
  refine (Stack.Steady.run_induction (I := fun s => Stack.EndsPlaced source (s.top :: s.below))
    ?_ (fun _ hs ht _ h => h.step hs ht) hts).close
  exact List.forall_mem_singleton.2 ⟨⟨rfl, fun _ _ p hp => by cases hp⟩, fun p hp => by cases hp⟩

/-! ## Trees -/

mutual

/-- The nodes of a planted phrase hold the keyword `end` only where it belongs, and are childless
if they are of the kind of a leaf. -/
theorem Phrase.EndsPlaced.plant {source : Text} : ∀ {p : Phrase} (id cursor : Nat),
    p.EndsPlaced source → p.Full → ∀ n ∈ (p.plant id cursor).preorder,
      (n.kind.isLeaf = true ∧ n.children = []) ∨ FishScript.EndsPlaced source n.kind n.parts
  | .leaf kind field span, id, cursor, .leaf hk, _, n, hn => by
    rw [List.mem_singleton.1 hn]
    exact .inl ⟨hk, rfl⟩
  | .node kind field children, id, cursor, .node h hchildren, .node hne hfull, n, hn => by
    rcases List.mem_cons.1 hn with rfl | hn
    · right
      show FishScript.EndsPlaced source kind ((plantAll (id + 1) cursor children).map Node.part)
      rw [map_part_plantAll hfull]
      exact h
    · exact endsPlaced_plantAll (id + 1) cursor hchildren hfull n hn

theorem endsPlaced_plantAll {source : Text} : ∀ {ps : List Phrase} (id cursor : Nat),
    (∀ p ∈ ps, p.EndsPlaced source) → (∀ p ∈ ps, p.Full) →
    ∀ n ∈ preorderAll (plantAll id cursor ps),
      (n.kind.isLeaf = true ∧ n.children = []) ∨ FishScript.EndsPlaced source n.kind n.parts
  | p :: ps, id, cursor, h, hfull, n, hn => by
    rcases List.mem_append.1 hn with hn | hn
    · exact (h p (by simp)).plant id cursor (hfull p (by simp)) n hn
    · exact endsPlaced_plantAll _ _ (fun q hq => h q (by simp [hq]))
        (fun q hq => hfull q (by simp [hq])) n hn

end

end FishScript
