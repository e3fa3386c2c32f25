/-
# Parsing loses nothing

Every terminal becomes exactly one leaf of the tree. A step of the parser adds its terminal
behind the leaves that the open nodes hold (`Stack.step_leaves`), so a run leaves the terminals
in their order; and since every node but the program begins with a leaf, the nodes without
children are these leaves and no others.
-/
import Mathlib
import FishScript.Proofs.Grammar.Rules
import FishScript.Proofs.Tree.Planting

namespace FishScript

/-! ## Leaves of phrases -/

/-- A leaf of a phrase. -/
structure Leaf where
  /-- What it stands for. -/
  kind : NodeKind
  /-- Its role in the node that holds it. -/
  field : Option Field
  /-- Where it stands. -/
  span : Span

/-- The leaf stands for the terminal. -/
def Leaf.Of (l : Leaf) (t : Terminal) : Prop := l.span = t.span ∧ l.kind ∈ t.symbol.leafKinds

lemma exists_of_forall₂ {ls : List Leaf} {ts : List Terminal} (h : List.Forall₂ Leaf.Of ls ts) :
    ∀ l ∈ ls, ∃ t ∈ ts, l.Of t := by
  induction h with
  | nil => simp
  | cons hl _ ih =>
    refine List.forall_mem_cons.2 ⟨⟨_, List.mem_cons_self, hl⟩, fun l hl => ?_⟩
    obtain ⟨t, ht, hof⟩ := ih l hl
    exact ⟨t, List.mem_cons_of_mem _ ht, hof⟩

mutual

/-- The leaves of a phrase, in order. -/
def Phrase.leaves : Phrase → List Leaf
  | .leaf kind field span => [⟨kind, field, span⟩]
  | .node _ _ children => leavesOf children

/-- The leaves of some phrases, in order. -/
def leavesOf : List Phrase → List Leaf
  | [] => []
  | p :: rest => p.leaves ++ leavesOf rest

end

lemma leavesOf_append (ps qs : List Phrase) : leavesOf (ps ++ qs) = leavesOf ps ++ leavesOf qs := by
  induction ps with
  | nil => rfl
  | cons p ps ih => simp only [List.cons_append, leavesOf, ih, List.append_assoc]

/-- Every node of a phrase holds something. -/
inductive Phrase.Full : Phrase → Prop
  /-- A leaf is no node that holds anything. -/
  | leaf {kind : NodeKind} {field : Option Field} {span : Span} : Full (.leaf kind field span)
  /-- A node holds at least one phrase. -/
  | node {kind : NodeKind} {field : Option Field} {children : List Phrase} (hne : children ≠ [])
      (hfull : ∀ p ∈ children, p.Full) : Full (.node kind field children)

/-! ## Leaves of open nodes -/

namespace Frame

/-- The leaves that an open node holds so far. -/
def leaves (f : Frame) : List Leaf := leavesOf f.phrases.reverse

/-- Every node in the open node holds something. -/
def Filled (f : Frame) : Prop := ∀ p ∈ f.phrases, p.Full

lemma leaves_add (f : Frame) (p : Phrase) : (f.add p).leaves = f.leaves ++ p.leaves := by
  simp only [leaves, add, List.reverse_cons, leavesOf_append, leavesOf, List.append_nil]

lemma leaves_phrase (f : Frame) : f.phrase.leaves = f.leaves := rfl

lemma Filled.add {f : Frame} (hf : f.Filled) {p : Phrase} (hp : p.Full) : (f.add p).Filled := by
  intro q hq
  rcases List.mem_cons.1 hq with rfl | hq
  · exact hp
  · exact hf q hq

lemma Filled.phrase_full {f : Frame} (hf : f.Filled) (hne : f.phrases ≠ []) : f.phrase.Full :=
  .node (by simpa using hne) fun p hp => hf p (by simpa using hp)

variable {f : Frame} {t : Terminal} {m : Move}

lemma Effect.leaves (he : f.Effect t m) :
    ∃ l : Leaf, l.Of t ∧ m.frame.leaves ++ m.inner?.elim [] Frame.leaves = f.leaves ++ [l] := by
  cases he with
  | @take kind leafKind leafField expect hk =>
    refine ⟨⟨leafKind, leafField, t.span⟩, ⟨rfl, hk⟩, ?_⟩
    simp only [Frame.take, Frame.leaves, List.reverse_cons, leavesOf_append, Option.elim,
      List.append_nil]
    rfl
  | enter hk => exact ⟨⟨_, _, t.span⟩, ⟨rfl, hk⟩, rfl⟩
  | pipe he hs =>
    refine ⟨⟨.operator, none, t.span⟩, ⟨rfl, by simp [hs, Symbol.leafKinds]⟩, ?_⟩
    simp [Frame.piped, Frame.leaves, leavesOf, Phrase.leaves]

lemma Rule.phrases_ne_nil (hr : f.Rule t m) (hf : f.phrases ≠ []) : m.frame.phrases ≠ [] := by
  cases hr.effect with
  | take | pipe => exact List.cons_ne_nil _ _
  | enter => exact hf

lemma Filled.move (hf : f.Filled) (hne : f.phrases ≠ [] ∨ f.IsRoot) (hr : f.Rule t m) :
    m.frame.Filled := by
  have hroot : f.IsRoot → m.frame.IsRoot := fun h => h.move hr
  cases hr.effect with
  | take => exact hf.add .leaf
  | enter => exact hf
  | pipe =>
    intro p hp
    rcases List.mem_cons.1 hp with rfl | hp
    · exact .leaf
    · -- the program never becomes a pipeline, so the command before the bar has a name
      rw [List.mem_singleton.1 hp]
      refine .node ?_ fun q hq => hf q (by simpa using hq)
      rcases hne with hne | hf
      · simpa using hne
      · exact absurd (hroot hf).1 (by simp [piped])

lemma Rule.inner_filled (hr : f.Rule t m) {g : Frame} (hg : m.inner? = some g) :
    g.phrases ≠ [] ∧ g.Filled := by
  cases hr.effect with
  | take | pipe => cases hg
  | enter =>
    cases hg
    refine ⟨List.cons_ne_nil _ _, fun p hp => ?_⟩
    rw [List.mem_singleton.1 hp]
    exact .leaf

end Frame

/-! ## Leaves of the stack -/

namespace Stack

/-- The leaves of some open nodes, the innermost node first. -/
def openLeaves : List Frame → List Leaf
  | [] => []
  | f :: below => openLeaves below ++ f.leaves

lemma leaves_close (below : List Frame) (top : Frame) :
    (close top below).leaves = openLeaves (top :: below) := by
  induction below generalizing top with
  | nil => rfl
  | cons next below ih =>
    rw [close, ih, openLeaves, Frame.leaves_add, Frame.leaves_phrase, ← List.append_assoc]
    rfl

/-- A step adds one leaf for its terminal behind the leaves so far. -/
theorem step_leaves {s : Stack} (hs : s.Grounded) (t : Terminal) :
    ∃ l : Leaf, l.Of t ∧ (s.step t).phrase.leaves = s.phrase.leaves ++ [l] := by
  refine step_induction (P := fun top below => (close top below).leaves = s.phrase.leaves)
    (Q := fun s' => ∃ l : Leaf, l.Of t ∧ s'.phrase.leaves = s.phrase.leaves ++ [l]) hs rfl
    (fun h _ => h) ?_
  intro top below m hP hr
  obtain ⟨l, hl, heq⟩ := hr.effect.leaves
  refine ⟨l, hl, ?_⟩
  rw [← hP, leaves_close, openLeaves, List.append_assoc, ← heq, phrase, leaves_close, ofMove]
  cases m.inner? with
  | none => simp [openLeaves]
  | some inner => simp [openLeaves]

/-- A run leaves its terminals, in their order, behind the leaves so far. -/
theorem foldl_leaves (ts : List Terminal) {s : Stack} (hs : s.Grounded) :
    ∃ ls, List.Forall₂ Leaf.Of ls ts ∧
      (ts.foldl step s).phrase.leaves = s.phrase.leaves ++ ls := by
  induction ts generalizing s with
  | nil => exact ⟨[], .nil, by simp⟩
  | cons t ts ih =>
    obtain ⟨l, hl, heq⟩ := step_leaves hs t
    obtain ⟨ls, hls, heq'⟩ := ih (hs.step t)
    refine ⟨l :: ls, .cons hl hls, ?_⟩
    rw [List.foldl_cons, heq', heq, List.append_assoc]
    rfl

/-- Every open node but the program holds something, and so does every node in one of them. -/
def FilledUpTo : Frame → List Frame → Prop
  | root, [] => root.IsRoot ∧ root.Filled
  | f, next :: below => f.phrases ≠ [] ∧ f.Filled ∧ FilledUpTo next below

lemma FilledUpTo.filled {top : Frame} {below : List Frame} (h : FilledUpTo top below) :
    (top.phrases ≠ [] ∨ top.IsRoot) ∧ top.Filled := by
  cases below with
  | nil => exact ⟨.inr h.1, h.2⟩
  | cons next below => exact ⟨.inl h.1, h.2.1⟩

lemma FilledUpTo.pop {top next : Frame} {below : List Frame}
    (h : FilledUpTo top (next :: below)) : FilledUpTo (next.add top.phrase) below := by
  obtain ⟨hne, htop, hbelow⟩ := h
  have hnext : (next.add top.phrase).Filled := hbelow.filled.2.add (htop.phrase_full hne)
  cases below with
  | nil => exact ⟨hbelow.1, hnext⟩
  | cons f below => exact ⟨List.cons_ne_nil _ _, hnext, hbelow.2.2⟩

lemma FilledUpTo.move {top : Frame} {below : List Frame} {t : Terminal} {m : Move}
    (h : FilledUpTo top below) (hr : top.Rule t m) :
    FilledUpTo (ofMove m below).top (ofMove m below).below := by
  have hframe : FilledUpTo m.frame below := by
    have hfilled := h.filled.2.move h.filled.1 hr
    cases below with
    | nil => exact ⟨h.1.move hr, hfilled⟩
    | cons next below => exact ⟨hr.phrases_ne_nil h.1, hfilled, h.2.2⟩
  unfold ofMove
  split
  · exact hframe
  · rename_i inner hi
    obtain ⟨hne, hinner⟩ := hr.inner_filled hi
    exact ⟨hne, hinner, hframe⟩

lemma filledUpTo_foldl (ts : List Terminal) {s : Stack} (hs : s.Grounded)
    (h : FilledUpTo s.top s.below) :
    FilledUpTo (ts.foldl step s).top (ts.foldl step s).below := by
  induction ts generalizing s with
  | nil => exact h
  | cons t ts ih =>
    exact ih (hs.step t) (step_induction (P := FilledUpTo)
      (Q := fun s => FilledUpTo s.top s.below) hs h (fun h _ => h.pop) FilledUpTo.move)

/-- Closed at the end of the source, the open nodes are a program of full phrases. -/
lemma FilledUpTo.close {below : List Frame} {top : Frame} (h : FilledUpTo top below) :
    ∃ children, Stack.close top below = .node .program none children ∧
      ∀ p ∈ children, p.Full := by
  induction below generalizing top with
  | nil =>
    obtain ⟨⟨hkind, hfield, -⟩, hfilled⟩ := h
    exact ⟨top.phrases.reverse, by rw [Stack.close, Frame.phrase, hkind, hfield],
      fun p hp => hfilled p (by simpa using hp)⟩
  | cons next below ih => exact ih h.pop

end Stack

/-- The phrase of some terminals is a program; its leaves are the terminals in their order, and
no node in it is empty. -/
theorem parseTerminals_leaves (ts : List Terminal) :
    ∃ children, parseTerminals ts = .node .program none children ∧ (∀ p ∈ children, p.Full) ∧
      List.Forall₂ Leaf.Of (leavesOf children) ts := by
  have hfilled : Stack.FilledUpTo Stack.initial.top Stack.initial.below :=
    ⟨Stack.grounded_initial, fun p hp => by cases hp⟩
  obtain ⟨children, heq, hfull⟩ :=
    (Stack.filledUpTo_foldl ts Stack.grounded_initial hfilled).close
  obtain ⟨ls, hls, hleaves⟩ := Stack.foldl_leaves ts Stack.grounded_initial
  refine ⟨children, heq, hfull, ?_⟩
  have hphrase : leavesOf children = ls := by
    rw [Stack.phrase, heq] at hleaves
    simpa [Phrase.leaves, Stack.phrase, Stack.close, Stack.initial, Frame.phrase, leavesOf]
      using hleaves
  rw [hphrase]
  exact hls

lemma kind_rootOf (source : Text) : (rootOf source).kind = .program := by
  obtain ⟨children, heq, -⟩ := parseTerminals_leaves (limited source)
  rw [rootOf, heq]
  rfl

/-! ## Leaves of trees -/

namespace Node

/-- The node has no children. -/
def isChildless (n : Node) : Bool := n.children.isEmpty

/-- The nodes without children at a node and below it, in source order. The program is no leaf
even if it is empty. -/
def leaves (n : Node) : List Node := n.preorder.filter fun m => m.isChildless && m.kind != .program

/-- What a node shows if it is a leaf. -/
def leaf (n : Node) : Leaf := ⟨n.kind, n.field, n.span⟩

/-- The node is a leaf for the terminal. -/
def Of (n : Node) (t : Terminal) : Prop := n.span = t.span ∧ n.kind ∈ t.symbol.leafKinds

end Node

mutual

/-- The childless nodes of a planted phrase are its leaves. -/
theorem Phrase.leaves_plant : ∀ (p : Phrase) (id cursor : Nat), p.Full →
    ((p.plant id cursor).preorder.filter Node.isChildless).map Node.leaf = p.leaves
  | .leaf kind field span, id, cursor, _ => rfl
  | .node kind field children, id, cursor, .node hne hfull => by
    have hbelow : (plantAll (id + 1) cursor children).isEmpty = false := by
      cases children with
      | nil => exact absurd rfl hne
      | cons p ps => rfl
    rw [Phrase.plant, Node.preorder, List.filter_cons_of_neg (by simp [Node.isChildless, hbelow]),
      leavesOf_plantAll children (id + 1) cursor hfull, Phrase.leaves]

theorem leavesOf_plantAll : ∀ (ps : List Phrase) (id cursor : Nat), (∀ p ∈ ps, p.Full) →
    ((preorderAll (plantAll id cursor ps)).filter Node.isChildless).map Node.leaf = leavesOf ps
  | [], _, _, _ => rfl
  | p :: ps, id, cursor, h => by
    rw [plantAll, preorderAll, List.filter_append, List.map_append, leavesOf,
      Phrase.leaves_plant p id cursor (h p (by simp)),
      leavesOf_plantAll ps _ _ fun q hq => h q (by simp [hq])]

end

lemma Symbol.program_notMem_leafKinds (s : Symbol) : NodeKind.program ∉ s.leafKinds := by
  cases s <;> simp [leafKinds]

lemma leaves_plant_program {children : List Phrase} {ts : List Terminal}
    (hfull : ∀ p ∈ children, p.Full) (h : List.Forall₂ Leaf.Of (leavesOf children) ts)
    (id cursor : Nat) :
    List.Forall₂ Node.Of ((Phrase.node .program none children).plant id cursor).leaves ts := by
  have hbelow : ((Phrase.node .program none children).plant id cursor).leaves =
      ((preorderAll (plantAll (id + 1) cursor children)).filter Node.isChildless).filter
        fun m => m.kind != .program := by
    rw [Node.leaves, Phrase.plant, Node.preorder, List.filter_cons_of_neg (by simp),
      List.filter_filter]
    simp only [Bool.and_comm]
  have hmap := leavesOf_plantAll children (id + 1) cursor hfull
  rw [hbelow]
  generalize (preorderAll (plantAll (id + 1) cursor children)).filter Node.isChildless = ns at hmap
  rw [← hmap] at h
  clear hmap hbelow hfull
  induction ns generalizing ts with
  | nil => cases h; exact .nil
  | cons n ns ih =>
    obtain _ | ⟨hn, hns⟩ := h
    have hkind : (n.kind != .program) = true := by
      rw [bne_iff_ne]
      intro hp
      have hmem : n.kind ∈ _ := hn.2
      rw [hp] at hmem
      exact Symbol.program_notMem_leafKinds _ hmem
    rw [List.filter_cons, if_pos hkind]
    exact .cons hn (ih hns)

/-- Parsing loses nothing: every source has a tree, and the leaves of the tree are, one for one
and in order, the terminals of the source behind the nesting limit, each of a kind that its
terminal may become. -/
theorem parse_lossless (source : Text) :
    ∃ root, parse source = .ok ⟨source, [root]⟩ ∧ root.kind = .program ∧
      List.Forall₂ (fun n t => n.span = t.span ∧ n.kind ∈ t.symbol.leafKinds)
        root.leaves (limitNesting (terminals source)) := by
  obtain ⟨children, heq, hfull, hleaves⟩ := parseTerminals_leaves (limited source)
  refine ⟨rootOf source, parse_eq source, ?_, ?_⟩
  · rw [rootOf, heq, Phrase.plant]
  · rw [rootOf, heq]
    exact leaves_plant_program hfull hleaves 0 0

end FishScript
