/-
# How deep blocks nest

The depth of a tree is the greatest number of blocks, closed or not, that a node stands in. A step
of the parser deepens the tree exactly to the number of blocks that are then open
(`Stack.Settled.depth_step`), which the scan of the grammar's blocks counts. So the tree of a source
is as deep as the blocks that this scan finds open at some time (`depth_rootOf_le_iff`).
-/
import Mathlib
import FishScript.Proofs.Grammar.BlockScan

namespace FishScript

/-! ## Block constructs -/

/-- A node of the kind with these children is a block, closed or not. -/
def isConstruct (source : Text) (kind : NodeKind) (ps : List Part) : Bool :=
  Block.all.any fun b =>
    kind == b.kind || (kind == .error && ps.head?.any (·.isKeyword source b.opener.toList))

/-- What a node adds to the depth of the nodes in it. -/
def weight (source : Text) (kind : NodeKind) (ps : List Part) : Nat :=
  (isConstruct source kind ps).toNat

namespace Node

/-- The node is a block, closed or not. -/
def isConstruct (source : Text) (n : Node) : Bool := FishScript.isConstruct source n.kind n.parts

/-- A node in the tree below a root, with the nodes that it stands in, up to the root. -/
inductive Lineage (root : Node) : List Node → Prop
  /-- The root stands in no other node. -/
  | root : Lineage root [root]
  /-- A child stands in what its parent stands in, and in its parent. -/
  | child {n m : Node} {path : List Node} (h : Lineage root (n :: path)) (hm : m ∈ n.children) :
      Lineage root (m :: n :: path)

end Node

mutual

/-- The greatest number of blocks among a node of the tree and the nodes that it stands in. -/
def Node.depth (source : Text) : Node → Nat
  | ⟨id, kind, field, span, children⟩ =>
    weight source kind (Node.parts ⟨id, kind, field, span, children⟩) +
      depthOfNodes source children

/-- The same for some trees. -/
def depthOfNodes (source : Text) : List Node → Nat
  | [] => 0
  | n :: rest => max (n.depth source) (depthOfNodes source rest)

end

mutual

/-- The greatest number of blocks that a part of a phrase stands in. -/
def Phrase.depth (source : Text) : Phrase → Nat
  | .leaf kind _ _ => weight source kind []
  | .node kind _ children => weight source kind (children.map Phrase.part) + depthOf source children

/-- The same for some phrases. -/
def depthOf (source : Text) : List Phrase → Nat
  | [] => 0
  | p :: rest => max (p.depth source) (depthOf source rest)

end

/-! ## The depth of a tree -/

namespace Node

variable {source : Text}

lemma Lineage.extend {n m : Node} (hm : m ∈ n.children) {path : List Node} (h : m.Lineage path) :
    n.Lineage (path ++ [n]) := by
  induction h with
  | root => exact .child .root hm
  | child _ hm' ih => exact .child ih hm'

lemma Lineage.cases {n : Node} {path : List Node} (h : n.Lineage path) :
    path = [n] ∨ ∃ m ∈ n.children, ∃ rest, m.Lineage rest ∧ path = rest ++ [n] := by
  induction h with
  | root => exact .inl rfl
  | @child k m path h hm ih =>
    obtain heq | ⟨c, hc, rest, hrest, heq⟩ := ih
    · obtain ⟨rfl, rfl⟩ := List.cons.inj heq
      exact .inr ⟨m, hm, [m], .root, rfl⟩
    · right
      refine ⟨c, hc, m :: rest, ?_, by rw [heq]; rfl⟩
      cases hrest with
      | root =>
        obtain ⟨rfl, -⟩ := List.cons.inj heq
        exact .child .root hm
      | child hrest hm' =>
        obtain ⟨rfl, -⟩ := List.cons.inj heq
        exact .child (.child hrest hm') hm

end Node

lemma Node.countP_singleton (source : Text) (n : Node) :
    [n].countP (·.isConstruct source) = weight source n.kind n.parts := by
  rw [List.countP_singleton, weight, Node.isConstruct]
  cases FishScript.isConstruct source n.kind n.parts <;> rfl

mutual

theorem Node.countP_le_depth (source : Text) : ∀ (n : Node) {path : List Node}, n.Lineage path →
    path.countP (·.isConstruct source) ≤ n.depth source
  | ⟨id, kind, field, span, children⟩, path, h => by
    have hweight : _ = weight source kind _ :=
      Node.countP_singleton source ⟨id, kind, field, span, children⟩
    rw [Node.depth]
    obtain rfl | ⟨m, hm, rest, hrest, rfl⟩ := h.cases
    · rw [hweight]
      omega
    · rw [List.countP_append, hweight]
      have hrest' := countP_le_depthOfNodes source children hm hrest
      omega

theorem countP_le_depthOfNodes (source : Text) : ∀ (ns : List Node) {m : Node} {path : List Node},
    m ∈ ns → m.Lineage path → path.countP (·.isConstruct source) ≤ depthOfNodes source ns
  | n :: ns, m, path, hm, h => by
    rw [depthOfNodes]
    rcases List.mem_cons.1 hm with heq | hm
    · rw [heq] at h
      exact (n.countP_le_depth source h).trans (le_max_left _ _)
    · exact (countP_le_depthOfNodes source ns hm h).trans (le_max_right _ _)

end

mutual

theorem Node.exists_lineage (source : Text) : ∀ n : Node, ∃ path, n.Lineage path ∧
    path.countP (·.isConstruct source) = n.depth source
  | ⟨id, kind, field, span, children⟩ => by
    have hweight := Node.countP_singleton source ⟨id, kind, field, span, children⟩
    rw [Node.depth]
    obtain h | ⟨m, hm, path, hpath, heq⟩ := exists_lineage_of_nodes source children
    · exact ⟨_, .root, by rw [hweight, h]; rfl⟩
    · refine ⟨path ++ [_], hpath.extend hm, ?_⟩
      rw [List.countP_append, hweight, heq, Nat.add_comm]

theorem exists_lineage_of_nodes (source : Text) : ∀ ns : List Node, depthOfNodes source ns = 0 ∨
    ∃ m ∈ ns, ∃ path, m.Lineage path ∧ path.countP (·.isConstruct source) = depthOfNodes source ns
  | [] => .inl rfl
  | n :: ns => by
    right
    obtain ⟨path, hpath, heq⟩ := n.exists_lineage source
    rw [depthOfNodes]
    rcases le_total (depthOfNodes source ns) (n.depth source) with hle | hle
    · exact ⟨n, by simp, path, hpath, by rw [heq, max_eq_left hle]⟩
    · obtain h | ⟨m, hm, path', hpath', heq'⟩ := exists_lineage_of_nodes source ns
      · exact ⟨n, by simp, path, hpath, by rw [heq]; omega⟩
      · exact ⟨m, by simp [hm], path', hpath', by rw [heq', max_eq_right hle]⟩

end

/-- A tree is as deep as the lineage with the most blocks. -/
theorem Node.depth_le_iff {source : Text} {n : Node} {k : Nat} :
    n.depth source ≤ k ↔ ∀ path, n.Lineage path → path.countP (·.isConstruct source) ≤ k := by
  constructor
  · intro h path hpath
    exact (n.countP_le_depth source hpath).trans h
  · intro h
    obtain ⟨path, hpath, heq⟩ := n.exists_lineage source
    exact heq ▸ h path hpath

/-! ## The depth of a phrase -/

mutual

theorem Phrase.depth_plant (source : Text) : ∀ (p : Phrase) (id cursor : Nat), p.Full →
    (p.plant id cursor).depth source = p.depth source
  | .leaf kind field span, id, cursor, _ => by
    simp [Phrase.plant, Node.depth, Phrase.depth, Node.parts, depthOfNodes]
  | .node kind field children, id, cursor, .node hne hfull => by
    rw [Phrase.plant, Node.depth, Phrase.depth, Node.parts, map_part_plantAll hfull,
      depthOf_plantAll source children _ _ hfull]

theorem depthOf_plantAll (source : Text) : ∀ (ps : List Phrase) (id cursor : Nat),
    (∀ p ∈ ps, p.Full) → depthOfNodes source (plantAll id cursor ps) = depthOf source ps
  | [], _, _, _ => rfl
  | p :: ps, id, cursor, h => by
    rw [plantAll, depthOfNodes, depthOf, p.depth_plant source _ _ (h p (by simp)),
      depthOf_plantAll source ps _ _ fun q hq => h q (by simp [hq])]

end

section Weights

variable {source : Text}

lemma depthOf_append (ps qs : List Phrase) :
    depthOf source (ps ++ qs) = max (depthOf source ps) (depthOf source qs) := by
  induction ps with
  | nil => simp [depthOf]
  | cons p ps ih => rw [List.cons_append, depthOf, depthOf, ih, max_assoc]

lemma depthOf_reverse (ps : List Phrase) : depthOf source ps.reverse = depthOf source ps := by
  induction ps with
  | nil => rfl
  | cons p ps ih => rw [List.reverse_cons, depthOf_append, ih, depthOf, depthOf, depthOf]; omega

end Weights

/-! ## What open nodes weigh -/

namespace Block

variable {source : Text} {b : Block} {ps clauses : List Part} {p : Part}

lemma not_closed_singleton (p : Part) : ¬ b.Closed source [p] := by
  rintro ⟨front, close, args, heq, ⟨clauses, -, -, opener, body, rfl, -⟩, -⟩
  have := congrArg List.length heq
  simp at this

end Block

section Weights

variable {source : Text} {gs : List Span} {clauses ps : List Part} {kind : NodeKind}

lemma weight_block (b : Block) (ps : List Part) : weight source b.kind ps = 1 := by
  cases b <;> rfl

lemma weight_of_kind (hb : ∀ b : Block, kind ≠ b.kind) (he : kind ≠ .error) :
    weight source kind ps = 0 := by
  have hnone : isConstruct source kind ps = false := by
    simp [isConstruct, hb, he]
  rw [weight, hnone]
  rfl

/-- Of the nodes for source that fits nowhere only the blocks without an `end` count. -/
lemma weight_of_error (gs : List Span) {s : ErrorShape} (h : s.Fits source gs ps) :
    weight source .error ps = if s = .unclosed then 1 else 0 := by
  obtain ⟨p, ps, rfl⟩ := List.exists_cons_of_ne_nil h.ne_nil
  have hfirst := h.ofFirst_eq
  have hiff : isConstruct source .error (p :: ps) = true ↔ s = .unclosed := by
    constructor
    · intro hc
      obtain ⟨b, -, hb⟩ := List.any_eq_true.1 hc
      have hopener : p.isKeyword source b.opener.toList = true := by
        cases b <;> simpa [Block.kind] using hb
      rw [← hfirst, ErrorShape.ofFirst_of_keyword hopener]
      cases b <;> decide
    · rintro rfl
      obtain ⟨b, clauses, -, -, opener, body, heq, hopener, -⟩ := h
      obtain ⟨rfl, -⟩ := List.cons.inj heq
      refine List.any_eq_true.2 ⟨b, ?_, by simp [hopener]⟩
      cases b <;> decide
  rw [weight]
  cases hc : isConstruct source .error (p :: ps) with
  | true => rw [if_pos (hiff.1 hc)]; rfl
  | false => rw [if_neg (by rw [← hiff, hc]; simp)]; rfl

/-- The number of blocks that a node with statements is. -/
def Holder.blockCount : Holder → Nat
  | .block _ => 1
  | _ => 0

lemma Holder.Keeps.weight_eq {h : Holder} (hk : h.Keeps source clauses kind ps) :
    weight source kind ps = h.blockCount := by
  cases h with
  | block b =>
    obtain ⟨rfl, hopened⟩ := hk
    exact weight_of_error [] (s := .unclosed) ⟨b, clauses, hopened⟩
  | program | elseIf | otherwise | caseClause =>
    rw [hk.1]
    exact weight_of_kind (Block.ne_kind rfl) (by simp)

namespace Expect

/-- The number of blocks without an `end` that a node that expects this is. -/
def blockCount (e : Expect) : Nat := e.holder?.elim 0 Holder.blockCount

variable {e : Expect}

lemma Fits.weight_eq (hf : e.Fits source gs clauses kind ps) (he : e ≠ .finalWords) :
    weight source kind ps = e.blockCount := by
  have hzero : ∀ {k : NodeKind}, kind = k → (∀ b : Block, k ≠ b.kind) → k ≠ .error →
      weight source kind ps = 0 := fun hk hb he => weight_of_kind (hk ▸ hb) (hk ▸ he)
  unfold blockCount
  cases hh : e.holder? with
  | some h => exact (hf.keeps hh).weight_eq
  | none =>
    cases e with
    | finalWords => exact absurd rfl he
    | strayWords | garbage => obtain ⟨-, rfl, hps⟩ := hf; exact weight_of_error gs hps
    | arguments | conjunctions | joined | stage | bar =>
      exact hzero hf.2.1 (Block.ne_kind rfl) (by simp)
    | connectors =>
      obtain ⟨-, rfl, hne, hps⟩ := hf
      exact weight_of_error gs (s := .connectors)
        ⟨ps, [], by simp, hne, hps, by simp, by simp⟩
    | nothing =>
      obtain ⟨-, ⟨hk, -⟩ | ⟨rfl, hps⟩⟩ := hf
      · exact hzero hk (Block.ne_kind rfl) (by simp)
      · exact weight_of_error gs hps
    | _ => cases hh

lemma Awaits.weight_eq {field : Option Field} {clauseOf? : Option Block}
    (ha : e.Awaits source kind ps field clauseOf?) : weight source kind ps = e.blockCount := by
  cases clauseOf? with
  | some b =>
    obtain ⟨rfl, -, rfl, clauses, hopened, -⟩ := ha
    exact weight_of_error [] (s := .unclosed) ⟨b, clauses, hopened⟩
  | none =>
    cases e with
    | statements => exact ha.2.weight_eq
    | conditionRest => exact ha.2.2.weight_eq
    | nothing =>
      obtain ⟨-, ⟨rfl, -⟩ | ⟨rfl, hne, hps⟩⟩ := ha
      · exact weight_of_kind (Block.ne_kind rfl) (by simp)
      · exact weight_of_error [] (s := .connectors)
          ⟨ps, [], by simp, hne, hps, by simp, by simp⟩
    | bar =>
      obtain ⟨-, rfl, -⟩ := ha
      exact weight_of_kind (Block.ne_kind rfl) (by simp)
    | _ => exact ha.elim

lemma Awaits.kind_of_otherwise {field : Option Field} {clauseOf? : Option Block}
    (ha : e.Awaits source kind ps field clauseOf?) (he : e.holder? = some .otherwise) :
    kind = .elseClause := by
  cases clauseOf? with
  | some b =>
    obtain ⟨rfl, -⟩ := ha
    cases he
  | none =>
    cases e with
    | statements =>
      cases he
      exact ha.2.1
    | conditionRest =>
      cases he
      exact ha.2.1.elim
    | nothing | bar => cases he
    | _ => exact ha.elim

end Expect

end Weights

/-! ## The depth of a stack -/

namespace Frame

variable {source : Text} {gs : List Span} {f : Frame} {t : Terminal} {m : Move}

lemma blockCount_of_accept_eq_none (hn : f.accept t = none) : f.expect.blockCount = 0 := by
  rw [Expect.blockCount]
  cases hh : f.expect.holder? with
  | none => rfl
  | some h =>
    -- a list of statements of a block refuses no terminal
    obtain ⟨j, hl⟩ := lists_of_accept_eq_none hh hn
    obtain ⟨c, -, hrole⟩ := leaves_of_accept_eq_none hl hn
    cases h with
    | block b => cases b <;> cases c <;> cases hrole
    | _ => rfl

/-- What the node weighs if it is closed as it is. -/
def weight (source : Text) (f : Frame) : Nat := FishScript.weight source f.kind f.parts

/-- Only in a node for source that fits nowhere the phrases count, and there only the first. -/
lemma weight_add (h : f.phrases ≠ [] ∨ f.kind ≠ .error) (p : Phrase) :
    (f.add p).weight source = f.weight source := by
  show FishScript.weight source f.kind (f.add p).parts = FishScript.weight source f.kind f.parts
  rw [parts_add]
  rcases h with h | h
  · have hne : f.parts ≠ [] := by simpa [parts] using h
    obtain ⟨q, qs, heq⟩ := List.exists_cons_of_ne_nil hne
    rw [heq]
    rfl
  · have hkind : (f.kind == NodeKind.error) = false := by simpa using h
    simp only [FishScript.weight, isConstruct, hkind, Bool.false_and, Bool.or_false]

lemma depth_phrase (f : Frame) :
    f.phrase.depth source = f.weight source + depthOf source f.phrases := by
  rw [phrase, Phrase.depth, depthOf_reverse]
  rfl

/-- A move changes what a node stands for only in ways that do not count. -/
lemma Ready.weight_move (hr : f.Ready source gs t) (hne : f.phrases ≠ [] ∨ f.kind ≠ .error)
    (hm : f.Rule t m) : m.frame.weight source = f.weight source := by
  cases hm with
  | @close h j c b hl hs hrole =>
    obtain ⟨rfl, rfl⟩ := Holder.role_eq_closes hrole
    obtain ⟨clauses, hfits, -⟩ := hr
    have hkeeps := Expect.Fits.keeps hfits (Expect.holder?_of_listed? hl)
    rw [weight, weight, hkeeps.weight_eq]
    exact weight_block b _
  | elseIf he hs =>
    obtain ⟨-, hkeeps⟩ := hr.fits he (by simp)
    rw [weight, weight, hkeeps.weight_eq]
    show FishScript.weight source .elseIfClause _ = 0
    exact weight_of_kind (Block.ne_kind rfl) (by simp)
  | pipe he hs =>
    obtain ⟨-, hkind, -⟩ := hr.fits he (by simp)
    have hzero : ∀ {k : NodeKind} {ps}, k = .command ∨ k = .pipeline →
        FishScript.weight source k ps = 0 := by
      rintro k ps (rfl | rfl) <;> exact weight_of_kind (Block.ne_kind rfl) (by simp)
    exact (hzero (.inr rfl)).trans (hzero (.inl hkind)).symm
  | join | dangle | garble | begin | clause | stray | condition | conditionJoin | conjoined
  | connected | joined | staged => rfl
  | _ => exact weight_add hne _

lemma Rule.weight_inner (hm : f.Rule t m) {inner : Frame} (hi : m.inner? = some inner)
    (hf : inner.Fits source gs []) (he : inner.expect = .finalWords) : inner.weight source = 0 := by
  have hparts : ∃ p, inner.parts = [p] := by
    cases hm.effect with
    | take | pipe => cases hi
    | enter => cases hi; exact ⟨_, rfl⟩
  obtain ⟨p, hp⟩ := hparts
  rw [Fits, he] at hf
  obtain ⟨-, ⟨b, -, hb⟩ | ⟨hk, -⟩⟩ := hf
  · rw [hp] at hb
    exact absurd hb (Block.not_closed_singleton p)
  · rw [weight, hk]
    exact weight_of_kind (Block.ne_kind rfl) (by simp)

end Frame

namespace Stack

variable {source : Text} {gs : List Span} {t : Terminal}

/-- The number of blocks among some open nodes. -/
def weights (source : Text) : List Frame → Nat
  | [] => 0
  | f :: below => f.weight source + weights source below

/-- The depth of some open nodes, the innermost first, around something of depth `inner`. -/
def depthAround (source : Text) (inner : Nat) : List Frame → Nat
  | [] => inner
  | f :: below =>
    depthAround source (f.weight source + max (depthOf source f.phrases) inner) below

/-- What is inside some open nodes counts only if it is deeper than what they hold. -/
lemma depthAround_eq (inner : Nat) (fs : List Frame) :
    depthAround source inner fs =
      max (depthAround source 0 fs) (weights source fs + inner) := by
  induction fs generalizing inner with
  | nil => simp [depthAround, weights]
  | cons f below ih =>
    rw [depthAround, depthAround, ih, ih (f.weight source + max (depthOf source f.phrases) 0),
      weights]
    omega

lemma weights_le_depthAround (source : Text) (fs : List Frame) :
    weights source fs ≤ depthAround source 0 fs := by
  induction fs with
  | nil => simp [weights]
  | cons f below ih =>
    rw [depthAround, depthAround_eq, weights]
    omega

lemma FilledUpTo.phrases_or_kind {top : Frame} {below : List Frame} (h : FilledUpTo top below) :
    top.phrases ≠ [] ∨ top.kind ≠ .error := by
  obtain ⟨hne | hroot, -⟩ := h.filled
  · exact .inl hne
  · exact .inr (by rw [hroot.1]; simp)

lemma depth_close {below : List Frame} {top : Frame} (h : FilledUpTo top below) :
    (close top below).depth source = depthAround source 0 (top :: below) := by
  induction below generalizing top with
  | nil => rw [close, Frame.depth_phrase, depthAround, depthAround, Nat.max_zero]
  | cons next below ih =>
    have hnext := FilledUpTo.phrases_or_kind h.2.2
    rw [close, ih h.pop, depthAround, depthAround, depthAround, Frame.weight_add hnext]
    congr 2
    show max (depthOf source (top.phrase :: next.phrases)) 0 = _
    rw [depthOf, Frame.depth_phrase]
    omega

lemma depth_leaf {s : Symbol} {kind : NodeKind} (hk : kind ∈ s.leafKinds) (field : Option Field)
    (span : Span) : (Phrase.leaf kind field span).depth source = 0 := by
  obtain ⟨hb, he⟩ := Phrase.shaped_leaf_of_mem source [] hk field span
  exact weight_of_kind hb he

/-- A move deepens the tree to the blocks that are then open. -/
theorem depthAround_move {top : Frame} {below : List Frame} {m : Move}
    (hr : top.Ready source gs t) (hf : FilledUpTo top below) (hm : top.Rule t m) :
    depthAround source 0 ((ofMove m below).top :: (ofMove m below).below) =
      max (depthAround source 0 (top :: below))
        (weights source ((ofMove m below).top :: (ofMove m below).below)) := by
  have hw := hr.weight_move hf.phrases_or_kind hm
  have hle := weights_le_depthAround source (top :: below)
  have hsame : m.inner? = none → depthOf source m.frame.phrases = depthOf source top.phrases →
      depthAround source 0 ((ofMove m below).top :: (ofMove m below).below) =
        max (depthAround source 0 (top :: below))
          (weights source ((ofMove m below).top :: (ofMove m below).below)) := by
    intro hi hd
    rw [weights] at hle
    unfold ofMove
    rw [hi]
    simp only [depthAround, weights, hw, hd] at hle ⊢
    omega
  cases hm.effect with
  | take hk =>
    refine hsame rfl ?_
    show max (Phrase.depth source _) (depthOf source top.phrases) = _
    rw [depth_leaf hk, Nat.zero_max]
  | @enter kind leafKind field leafField outer inner hk =>
    -- the new node stands at the right edge, with nothing but a leaf in it
    have hinner :
        depthAround source 0 (.opened kind field leafKind leafField t inner :: top :: below)
        = depthAround source ((Frame.opened kind field leafKind leafField t inner).weight source)
          (top :: below) := by
      rw [depthAround]
      show depthAround source (_ + max (depthOf source [.leaf leafKind leafField t.span]) 0) _ = _
      rw [depthOf, depthOf, depth_leaf hk, Nat.max_self, Nat.max_self, Nat.add_zero]
    show depthAround source 0 (.opened kind field leafKind leafField t inner :: top :: below) = _
    rw [hinner, depthAround_eq, Nat.add_comm]
    rfl
  | pipe he hs =>
    refine hsame rfl ?_
    have hcommand : weight source .command (top.phrases.reverse.map Phrase.part) = 0 :=
      weight_of_kind (Block.ne_kind rfl) (by simp)
    show depthOf source [.leaf .operator none t.span, .node .command none top.phrases.reverse] = _
    simp only [depthOf, Phrase.depth, hcommand, depthOf_reverse]
    rw [show weight source .operator [] = 0 from rfl]
    omega

/-! ## Depth and open blocks -/

lemma length_levels {e : Expect} {outer : List Level}
    (h : e.holder? = some .otherwise → outer ≠ []) :
    (e.levels outer).length = e.blockCount + outer.length := by
  have hotherwise : outer ≠ [] → (Level.plain :: outer.tail).length = outer.length := by
    intro hne
    obtain ⟨l, ls, rfl⟩ := List.exists_cons_of_ne_nil hne
    rfl
  cases e with
  | statements holder | headerWords holder | condition holder | conditionRest holder =>
    cases holder with
    | otherwise =>
      refine (hotherwise (h rfl)).trans ?_
      exact (Nat.zero_add _).symm
    | block b => exact Nat.add_comm _ _
    | _ => exact (Nat.zero_add _).symm
  | functionHeader | loopHeader => exact Nat.add_comm _ _
  | _ => exact (Nat.zero_add _).symm

lemma levels_ne_nil {top : Frame} {below : List Frame} (hroot : Rooted top below)
    (hc : Chained source gs top below) (hk : top.kind = .elseClause) : levels below ≠ [] := by
  obtain ⟨outer, houter⟩ := levels_of_clause hroot hc (b := .ifBlock) (by rw [hk]; rfl)
  rw [houter]
  exact List.cons_ne_nil _ _

/-- The scan knows how many blocks there are among the nodes around the innermost one. -/
lemma weights_below {below : List Frame} {top : Frame} (hroot : Rooted top below)
    (hc : Chained source gs top below) : weights source below = (levels below).length := by
  induction below generalizing top with
  | nil => rfl
  | cons next below ih =>
    have hawaits := hc.2.1
    rw [weights, levels, length_levels, ih hroot hc.2.2]
    · rw [Frame.weight, Expect.Awaits.weight_eq hawaits]
    · intro he
      exact levels_ne_nil hroot hc.2.2 (Expect.Awaits.kind_of_otherwise hawaits he)

lemma length_levels_top {top : Frame} {below : List Frame} (hroot : Rooted top below)
    (hc : Chained source gs top below) (hf : top.Fits source gs []) :
    (levels (top :: below)).length = top.expect.blockCount + weights source below := by
  rw [levels, length_levels, weights_below hroot hc]
  intro he
  exact levels_ne_nil hroot hc (Expect.Fits.keeps hf he).1

/-- A step deepens the tree to the number of blocks that the scan then knows. -/
theorem Settled.depth_step {s : Stack} (h : s.Settled source gs)
    (hfilled : FilledUpTo s.top s.below) (ht : t.Reads source) (hg : t.Known gs) :
    (s.step t).phrase.depth source = max (s.phrase.depth source)
      (scan (s.step t).top (s.step t).below).levels.length := by
  refine step_induction
    (P := fun top below => Rooted top below ∧ FilledUpTo top below ∧ top.Ready source gs t ∧
      Chained source gs top below ∧ (close top below).depth source = s.phrase.depth source)
    (Q := fun s' => s'.phrase.depth source =
      max (s.phrase.depth source) (scan s'.top s'.below).levels.length) h.grounded
    ⟨h.grounded, hfilled, h.wellShaped.1.ready t, h.wellShaped.2, rfl⟩ ?_ ?_
  · rintro top next below ⟨hroot, hfilled, hr, hc, hd⟩ hn
    obtain ⟨clauses, hfits, -⟩ := id hr
    exact ⟨hroot.pop _, hfilled.pop, Frame.Ready.pop hc.2.1 hr hn, hc.pop hfits, hd⟩
  · rintro top below m ⟨hroot, hfilled, hr, hc, hd⟩ hm
    obtain ⟨hfits', hc'⟩ := hc.ofMove hr ht hg hm
    have hlength := length_levels_top (hroot.ofMove hm) hc' hfits'
    have hle := weights_le_depthAround source (top :: below)
    rw [phrase, depth_close (hfilled.move hm), depthAround_move hr hfilled hm,
      ← depth_close hfilled, hd]
    rw [← depth_close hfilled, hd] at hle
    show max _ (weights source (_ :: _)) = max _ (levels (_ :: _)).length
    rw [hlength, weights]
    by_cases he : (ofMove m below).top.expect = .finalWords
    · have hzero : (ofMove m below).top.expect.blockCount = 0 := by rw [he]; rfl
      have hw := hr.weight_move hfilled.phrases_or_kind hm
      unfold ofMove at he hzero hfits' ⊢
      cases hi : m.inner? with
      | none =>
        -- the block that is now closed has been counted before
        simp only [hi, weights] at hzero hle ⊢
        omega
      | some inner =>
        simp only [hi] at he hzero hfits' ⊢
        rw [hzero, hm.weight_inner hi hfits' he]
    · rw [Frame.weight, Expect.Fits.weight_eq hfits' he]

lemma scan_foldl {ts : List Terminal} (hts : ∀ t ∈ ts, t.Reads source ∧ t.Known gs) :
    (ts.foldl step .initial).Settled source gs ∧
      scan (ts.foldl step .initial).top (ts.foldl step .initial).below = BlockScan.run ts := by
  induction ts using List.reverseRecOn with
  | nil => exact ⟨settled_initial, rfl⟩
  | append_singleton ts t ih =>
    obtain ⟨hsettled, hscan⟩ := ih fun u hu => hts u (by simp [hu])
    obtain ⟨ht, hg⟩ := hts t (by simp)
    obtain ⟨hsettled', hscan'⟩ := hsettled.step ht hg
    rw [List.foldl_append, List.foldl_cons, List.foldl_nil]
    refine ⟨hsettled', hscan'.trans ?_⟩
    rw [hscan, BlockScan.run, BlockScan.run, List.foldl_append]
    rfl

lemma filledUpTo_initial : FilledUpTo Stack.initial.top Stack.initial.below :=
  ⟨grounded_initial, fun p hp => by cases hp⟩

end Stack

/-- The parser makes a phrase as deep as the blocks that the scan finds open at some time. -/
theorem depth_parseTerminals_le_iff {source : Text} {gs : List Span} {ts : List Terminal}
    (hts : ∀ t ∈ ts, t.Reads source ∧ t.Known gs) (k : Nat) :
    (parseTerminals ts).depth source ≤ k ↔
      ∀ us, us <+: ts → (BlockScan.run us).levels.length ≤ k := by
  induction ts using List.reverseRecOn with
  | nil =>
    have hzero : (parseTerminals []).depth source = 0 := rfl
    rw [hzero]
    refine ⟨fun _ us hus => ?_, fun _ => Nat.zero_le k⟩
    rw [List.prefix_nil.1 hus]
    exact Nat.zero_le k
  | append_singleton ts t ih =>
    have hts' : ∀ u ∈ ts, u.Reads source ∧ u.Known gs := fun u hu => hts u (by simp [hu])
    obtain ⟨ht, hg⟩ := hts t (by simp)
    obtain ⟨hsettled, -⟩ := Stack.scan_foldl hts'
    have hfilled := Stack.filledUpTo_foldl ts Stack.grounded_initial Stack.filledUpTo_initial
    have hstep := hsettled.depth_step hfilled ht hg
    have hdepth : (parseTerminals (ts ++ [t])).depth source =
        max ((parseTerminals ts).depth source) (BlockScan.run (ts ++ [t])).levels.length := by
      rw [← (Stack.scan_foldl hts).2, parseTerminals, parseTerminals, List.foldl_append]
      exact hstep
    rw [hdepth, max_le_iff, ih hts']
    constructor
    · rintro ⟨hbefore, hlast⟩ us hus
      rcases List.prefix_concat_iff.1 hus with rfl | hus
      · exact hlast
      · exact hbefore us hus
    · intro h
      exact ⟨fun us hus => h us (hus.trans (List.prefix_append ts [t])), h _ List.prefix_rfl⟩

/-! ## The nesting limit -/

lemma depth_plant_parseTerminals (source : Text) (ts : List Terminal) :
    ((parseTerminals ts).plant 0 0).depth source = (parseTerminals ts).depth source := by
  obtain ⟨children, heq, hfull, -⟩ := parseTerminals_leaves ts
  rw [heq, Phrase.plant, Node.depth, Phrase.depth, Node.parts, map_part_plantAll hfull,
    depthOf_plantAll source children _ _ hfull]

/-- The tree of a source is as deep as the blocks that the scan finds open at some time. -/
theorem depth_rootOf_le_iff (source : Text) (k : Nat) : (rootOf source).depth source ≤ k ↔
    ∀ ts, ts <+: limited source → (BlockScan.run ts).levels.length ≤ k := by
  rw [← depth_parseTerminals_le_iff (fun t (ht : t ∈ limited source) => known_of_mem_limited ht) k,
    rootOf, depth_plant_parseTerminals]

end FishScript
