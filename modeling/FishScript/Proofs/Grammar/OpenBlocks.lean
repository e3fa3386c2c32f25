/-
# Faults, and where blocks stay open

Every error node is a fault of one of three sorts, which its first child tells: a block without
its `end`, an `end` without a block, or anything else. Faults are counted in phrases and in
stacks, where closing the open nodes changes nothing (`Stack.faults_close`).

A node that refuses a terminal is no open block. So the complete phrases in open nodes never hold
a block without its `end`; such blocks are among the nodes that are open at the end of the source,
and in the tree they stand at the right edge, each inside the one before it.
-/
import Mathlib
import FishScript.Proofs.Grammar.Runs
import FishScript.Proofs.Tree.Extent
import FishScript.Proofs.Tree.Sites
import FishScript.Rules.Finding

namespace FishScript

/-! ## Faults of nodes -/

/-- What is wrong with a node of the kind with these children. -/
def fault? (source : Text) (kind : NodeKind) (ps : List Part) : Option Code :=
  if kind ≠ .error then none
  else if isConstruct source kind ps then some .missingEnd
  else if ps.head?.any (·.isEnd source) then some .extraEnd
  else some .syntaxError

/-- One if this is wrong with the node, zero otherwise. -/
def faultCount (source : Text) (c : Code) (kind : NodeKind) (ps : List Part) : Nat :=
  if fault? source kind ps = some c then 1 else 0

section Faults

variable {source : Text} {c : Code} {kind : NodeKind} {p : Part} {ps : List Part}

lemma fault?_of_kind (h : kind ≠ .error) (ps : List Part) : fault? source kind ps = none := if_pos h

lemma faultCount_of_kind (h : kind ≠ .error) (ps : List Part) :
    faultCount source c kind ps = 0 := by
  rw [faultCount, fault?_of_kind h, if_neg (by simp)]

lemma fault?_concat (h : ps ≠ [] ∨ kind ≠ .error) (p : Part) :
    fault? source kind (ps ++ [p]) = fault? source kind ps := by
  obtain h | h := h
  · obtain ⟨q, qs, rfl⟩ := List.exists_cons_of_ne_nil h
    rfl
  · rw [fault?_of_kind h, fault?_of_kind h]

lemma fault?_ne_missingEnd (h : weight source kind ps = 0) :
    fault? source kind ps ≠ some .missingEnd := by
  have hconstruct : isConstruct source kind ps = false := by
    rw [weight] at h
    cases hc : isConstruct source kind ps with
    | false => rfl
    | true =>
      rw [hc] at h
      cases h
  unfold fault?
  split
  · simp
  · rw [if_neg (by simp [hconstruct])]
    split <;> simp

lemma fault?_of_error {gs : List Span} {s : ErrorShape} (h : s.Fits source gs ps) :
    fault? source .error ps = some (if s = .unclosed then .missingEnd
      else if ps.head?.any (·.isEnd source) then .extraEnd else .syntaxError) := by
  have hweight := weight_of_error gs h
  have hconstruct : isConstruct source .error ps = decide (s = .unclosed) := by
    rw [weight] at hweight
    cases hc : isConstruct source .error ps with
    | true =>
      rw [hc] at hweight
      by_cases hs : s = .unclosed
      · simp [hs]
      · rw [if_neg hs] at hweight
        cases hweight
    | false =>
      rw [hc] at hweight
      by_cases hs : s = .unclosed
      · rw [if_pos hs] at hweight
        cases hweight
      · simp [hs]
  rw [fault?, if_neg (by simp), hconstruct]
  by_cases hs : s = .unclosed
  · simp [hs]
  · simp only [hs, decide_false, Bool.false_eq_true, if_false]
    split <;> rfl

end Faults

/-! ## Faults of phrases -/

mutual

/-- The number of nodes in a phrase with which this is wrong. -/
def Phrase.faults (source : Text) (c : Code) : Phrase → Nat
  | .leaf kind _ _ => faultCount source c kind []
  | .node kind _ children =>
    faultCount source c kind (children.map Phrase.part) + faultsOf source c children

/-- The same for some phrases. -/
def faultsOf (source : Text) (c : Code) : List Phrase → Nat
  | [] => 0
  | p :: rest => p.faults source c + faultsOf source c rest

end

namespace Node

/-- What is wrong with a node. -/
def fault? (source : Text) (n : Node) : Option Code := FishScript.fault? source n.kind n.parts

/-- The nodes at the node and below it with which this is wrong. -/
def faulty (source : Text) (c : Code) (ns : List Node) : List Node :=
  ns.filter fun n => n.fault? source == some c

end Node

section Counts

variable {source : Text} {c : Code}

lemma faultsOf_append (ps qs : List Phrase) :
    faultsOf source c (ps ++ qs) = faultsOf source c ps + faultsOf source c qs := by
  induction ps with
  | nil => rw [List.nil_append, faultsOf, Nat.zero_add]
  | cons p ps ih => rw [List.cons_append, faultsOf, faultsOf, ih, Nat.add_assoc]

lemma faultsOf_reverse (ps : List Phrase) :
    faultsOf source c ps.reverse = faultsOf source c ps := by
  induction ps with
  | nil => rfl
  | cons p ps ih =>
    rw [List.reverse_cons, faultsOf_append, ih, faultsOf, faultsOf, faultsOf]
    omega

lemma faults_leaf {s : Symbol} {kind : NodeKind} (hk : kind ∈ s.leafKinds) (field : Option Field)
    (span : Span) : (Phrase.leaf kind field span).faults source c = 0 := by
  refine faultCount_of_kind ?_ _
  rintro rfl
  cases s <;> simp [Symbol.leafKinds] at hk

lemma length_faulty_singleton (source : Text) (c : Code) (n : Node) :
    (Node.faulty source c [n]).length = faultCount source c n.kind n.parts := by
  rw [Node.faulty, List.filter_cons, List.filter_nil, faultCount, Node.fault?]
  by_cases h : fault? source n.kind n.parts = some c <;> simp [h]

lemma faulty_cons (n : Node) (ns : List Node) :
    Node.faulty source c (n :: ns) = Node.faulty source c [n] ++ Node.faulty source c ns :=
  List.filter_append [n] ns

lemma faulty_append (ns ms : List Node) :
    Node.faulty source c (ns ++ ms) = Node.faulty source c ns ++ Node.faulty source c ms :=
  List.filter_append ns ms

mutual

/-- A phrase and the node that it becomes have the same faults. -/
theorem Phrase.length_faulty_plant : ∀ (p : Phrase) (id cursor : Nat), p.Full →
    (Node.faulty source c (p.plant id cursor).preorder).length = p.faults source c
  | .leaf kind field span, id, cursor, _ => length_faulty_singleton source c _
  | .node kind field children, id, cursor, .node _ hfull => by
    rw [Phrase.plant, Node.preorder, faulty_cons, List.length_append, length_faulty_singleton,
      length_faulty_plantAll children _ _ hfull, Phrase.faults, Node.parts,
      map_part_plantAll hfull]

theorem length_faulty_plantAll : ∀ (ps : List Phrase) (id cursor : Nat), (∀ p ∈ ps, p.Full) →
    (Node.faulty source c (preorderAll (plantAll id cursor ps))).length = faultsOf source c ps
  | [], _, _, _ => rfl
  | p :: ps, id, cursor, h => by
    obtain ⟨hp, hps⟩ := List.forall_mem_cons.1 h
    rw [plantAll, preorderAll, faulty_append, List.length_append, p.length_faulty_plant _ _ hp,
      length_faulty_plantAll ps _ _ hps, faultsOf]

end

end Counts

/-! ## Faults of open nodes -/

namespace Frame

variable {source : Text} {gs : List Span} {c : Code} {f : Frame} {t : Terminal}

/-- What is wrong with the node if it is closed as it is. -/
def fault? (source : Text) (f : Frame) : Option Code := FishScript.fault? source f.kind f.parts

/-- The faults of the node if it is closed as it is, and of the phrases in it. -/
def faults (source : Text) (c : Code) (f : Frame) : Nat :=
  faultCount source c f.kind f.parts + faultsOf source c f.phrases

lemma faults_phrase (f : Frame) : f.phrase.faults source c = f.faults source c := by
  rw [phrase, Phrase.faults, faultsOf_reverse]
  rfl

lemma faults_add (h : f.phrases ≠ [] ∨ f.kind ≠ .error) (p : Phrase) :
    (f.add p).faults source c = f.faults source c + p.faults source c := by
  have hne : f.parts ≠ [] ∨ f.kind ≠ .error := h.imp_left fun h => by simpa [parts] using h
  have hown : faultCount source c (f.add p).kind (f.add p).parts =
      faultCount source c f.kind f.parts := by
    rw [parts_add]
    show (if FishScript.fault? source f.kind (f.parts ++ [p.part]) = some c then 1 else 0) = _
    rw [fault?_concat hne]
    rfl
  rw [faults, faults, hown]
  show _ + (p.faults source c + faultsOf source c f.phrases) = _
  omega

lemma Ready.fault?_ne_missingEnd (hr : f.Ready source gs t) (hn : f.accept t = none) :
    f.fault? source ≠ some .missingEnd := by
  obtain ⟨clauses, hfits, -⟩ := hr
  by_cases he : f.expect = .finalWords
  · rw [Fits, he] at hfits
    have hkind : f.kind ≠ .error := by
      obtain ⟨-, ⟨b, hk, -⟩ | ⟨hk, -⟩⟩ := hfits
      · rw [hk]
        cases b <;> simp [Block.kind]
      · simp [hk]
    rw [fault?, fault?_of_kind hkind]
    simp
  · refine FishScript.fault?_ne_missingEnd ?_
    rw [Expect.Fits.weight_eq hfits he, blockCount_of_accept_eq_none hn]

end Frame

namespace Stack

variable {source : Text} {gs : List Span} {c : Code} {t : Terminal}

/-- The faults of some open nodes and of the phrases in them. -/
def faults (source : Text) (c : Code) : List Frame → Nat
  | [] => 0
  | f :: below => f.faults source c + faults source c below

lemma faults_pop {top next : Frame} {below : List Frame} (h : FilledUpTo top (next :: below)) :
    faults source c (next.add top.phrase :: below) = faults source c (top :: next :: below) := by
  rw [faults, faults, faults, Frame.faults_add (FilledUpTo.phrases_or_kind h.2.2),
    Frame.faults_phrase]
  omega

theorem faults_close {below : List Frame} {top : Frame} (h : FilledUpTo top below) :
    (close top below).faults source c = faults source c (top :: below) := by
  induction below generalizing top with
  | nil => rw [close, Frame.faults_phrase, faults, faults, Nat.add_zero]
  | cons next below ih => rw [close, ih h.pop, faults_pop h]

/-! ## Blocks that are complete -/

/-- No complete phrase in the open nodes holds a block without its `end`. -/
def Sealed (source : Text) (fs : List Frame) : Prop :=
  ∀ f ∈ fs, faultsOf source .missingEnd f.phrases = 0

lemma Sealed.pop {top next : Frame} {below : List Frame} (h : Sealed source (top :: next :: below))
    (hr : top.Ready source gs t) (hn : top.accept t = none) :
    Sealed source (next.add top.phrase :: below) := by
  obtain ⟨htop, hrest⟩ := List.forall_mem_cons.1 h
  obtain ⟨hnext, hbelow⟩ := List.forall_mem_cons.1 hrest
  refine List.forall_mem_cons.2 ⟨?_, hbelow⟩
  have hown : faultCount source .missingEnd top.kind top.parts = 0 :=
    if_neg (hr.fault?_ne_missingEnd hn)
  show top.phrase.faults source .missingEnd + faultsOf source .missingEnd next.phrases = 0
  rw [Frame.faults_phrase, Frame.faults, hown, htop, hnext]

lemma Sealed.ofMove {top : Frame} {below : List Frame} {m : Move} (h : Sealed source (top :: below))
    (hm : top.Rule t m) :
    Sealed source ((Stack.ofMove m below).top :: (Stack.ofMove m below).below) := by
  obtain ⟨htop, hbelow⟩ := List.forall_mem_cons.1 h
  cases hm.effect with
  | take hk =>
    refine List.forall_mem_cons.2 ⟨?_, hbelow⟩
    show Phrase.faults source _ _ + faultsOf source _ top.phrases = 0
    rw [faults_leaf hk, htop]
  | enter hk =>
    refine List.forall_mem_cons.2 ⟨?_, List.forall_mem_cons.2 ⟨htop, hbelow⟩⟩
    show Phrase.faults source _ _ + 0 = 0
    rw [faults_leaf hk]
  | pipe he hs =>
    refine List.forall_mem_cons.2 ⟨?_, hbelow⟩
    have hleaf : NodeKind.operator ∈ t.symbol.leafKinds := by simp [hs, Symbol.leafKinds]
    show Phrase.faults source _ _ + (Phrase.faults source _ (.node .command none _) + 0) = 0
    rw [faults_leaf hleaf, Phrase.faults, faultCount_of_kind (by simp), faultsOf_reverse, htop]

lemma Sealed.step {s : Stack} (hs : s.Steady source gs) (h : Sealed source (s.top :: s.below)) :
    Sealed source ((s.step t).top :: (s.step t).below) :=
  hs.step_induction (P := fun top below => Sealed source (top :: below))
    (Q := fun s => Sealed source (s.top :: s.below)) h
    (fun hoffered hn h => h.pop hoffered.ready hn) (fun _ hm h => h.ofMove hm)

lemma sealed_initial : Sealed source (Stack.initial.top :: Stack.initial.below) :=
  List.forall_mem_singleton.2 rfl

/-- After a run no complete phrase holds a block without its `end`. -/
lemma sealed_run {ts : List Terminal} (hts : ∀ t ∈ ts, t.Reads source ∧ t.Known gs) :
    (ts.foldl step .initial).Steady source gs ∧
      Sealed source ((ts.foldl step .initial).top :: (ts.foldl step .initial).below) :=
  ⟨Steady.foldl hts, Steady.run_induction (I := fun s => Sealed source (s.top :: s.below))
    sealed_initial (fun _ hs _ _ h => h.step hs) hts⟩

end Stack

/-! ## Blocks that stay open -/

/-- Blocks without their `end` stand at the right edge of the phrase. -/
inductive Phrase.OpensRight (source : Text) : Phrase → Prop
  /-- There are none. -/
  | closed {p : Phrase} (h : p.faults source .missingEnd = 0) : OpensRight source p
  /-- The phrase may be one, others stand in its last part. -/
  | opened {kind : NodeKind} {field : Option Field} {init : List Phrase} {last : Phrase}
      (hinit : faultsOf source .missingEnd init = 0) (hlast : last.OpensRight source) :
      OpensRight source (.node kind field (init ++ [last]))

namespace Stack

variable {source : Text}

lemma opensRight_close {below : List Frame} {top : Frame}
    (htop : top.phrase.OpensRight source) (h : Sealed source below) :
    (close top below).OpensRight source := by
  induction below generalizing top with
  | nil => exact htop
  | cons next below ih =>
    obtain ⟨hnext, hbelow⟩ := List.forall_mem_cons.1 h
    refine ih ?_ hbelow
    rw [Frame.phrase, Frame.add, List.reverse_cons]
    exact .opened (by rw [faultsOf_reverse, hnext]) htop

lemma opensRight_phrase {f : Frame} (h : faultsOf source .missingEnd f.phrases = 0)
    (hne : f.phrases ≠ [] ∨ f.kind ≠ .error) : f.phrase.OpensRight source := by
  cases hps : f.phrases with
  | nil =>
    refine .closed ?_
    rw [hps] at hne
    rw [Frame.faults_phrase, Frame.faults, h, faultCount_of_kind (hne.resolve_left (by simp))]
  | cons p ps =>
    rw [hps, faultsOf, Nat.add_eq_zero_iff] at h
    rw [Frame.phrase, hps, List.reverse_cons]
    exact .opened (by rw [faultsOf_reverse, h.2]) (.closed h.1)

end Stack

/-- In the phrase of some terminals, blocks without their `end` stand at the right edge. -/
theorem parseTerminals_opensRight {source : Text} {gs : List Span} {ts : List Terminal}
    (hts : ∀ t ∈ ts, t.Reads source ∧ t.Known gs) : (parseTerminals ts).OpensRight source := by
  obtain ⟨hsteady, hsealed⟩ := Stack.sealed_run hts
  obtain ⟨htop, hbelow⟩ := List.forall_mem_cons.1 hsealed
  exact Stack.opensRight_close
    (Stack.opensRight_phrase htop hsteady.filled.phrases_or_kind) hbelow

/-- Where the phrases before the last one have no faults of a code, all nodes with it are in the
node of the last. -/
lemma faulty_plantAll_concat {source : Text} {c : Code} {init : List Phrase} {last : Phrase}
    (hinit : faultsOf source c init = 0) (hfull : ∀ p ∈ init, p.Full) (id cursor : Nat) :
    Node.faulty source c (preorderAll (plantAll id cursor (init ++ [last]))) =
      Node.faulty source c
        (last.plant (id + sizeOfAll init) (reachOfAll cursor init)).preorder := by
  have hnone : (Node.faulty source c (preorderAll (plantAll id cursor init))).length =
      faultsOf source c init := length_faulty_plantAll init id cursor hfull
  rw [hinit, List.length_eq_zero_iff] at hnone
  rw [plantAll_append, preorderAll_append, faulty_append, hnone, List.nil_append, plantAll,
    plantAll, preorderAll, preorderAll, List.append_nil]

/-- The nodes that become of blocks without their `end` reach to the end of the last leaf, and each
starts no earlier than the one before it. -/
theorem Phrase.OpensRight.plant {source : Text} {p : Phrase} (h : p.OpensRight source)
    (hfull : p.Full) (horder : LeavesInOrder p.leaves) (id cursor : Nat) :
    (∀ n ∈ Node.faulty source .missingEnd (p.plant id cursor).preorder,
      (extent p.leaves).start ≤ n.span.start ∧ n.span.stop = (extent p.leaves).stop) ∧
    (Node.faulty source .missingEnd (p.plant id cursor).preorder).Pairwise
      fun n m => n.span.start ≤ m.span.start := by
  induction h generalizing id cursor with
  | @closed p h =>
    rw [← p.length_faulty_plant id cursor hfull, List.length_eq_zero_iff] at h
    rw [h]
    exact ⟨fun n hn => (List.not_mem_nil hn).elim, .nil⟩
  | @opened kind field init last hinit hlast ih =>
    -- the node itself may be such a block, and all others stand in its last part
    have hspan := (Phrase.node kind field (init ++ [last])).span_plant id cursor hfull horder
    obtain _ | ⟨hne, hchildren⟩ := hfull
    have hlastFull : last.Full := hchildren last (by simp)
    have hleaves : (Phrase.node kind field (init ++ [last])).leaves =
        leavesOf init ++ last.leaves := by
      rw [Phrase.leaves, leavesOf_append, leavesOf, leavesOf, List.append_nil]
    rw [hleaves] at horder hspan ⊢
    obtain ⟨-, hlastOrder, -⟩ := LeavesInOrder.append_iff.1 horder
    have hstop := extent_stop_append hlastFull.leaves_ne_nil (leavesOf init)
    have hstart := extent_start_le horder hlastFull.leaves_ne_nil
    have hinitFull : ∀ q ∈ init, q.Full := fun q hq => hchildren q (by simp [hq])
    obtain ⟨hreach, hsorted⟩ := ih hlastFull hlastOrder (id + 1 + sizeOfAll init)
      (reachOfAll cursor init)
    have hreach' : ∀ n ∈ Node.faulty source .missingEnd
        (last.plant (id + 1 + sizeOfAll init) (reachOfAll cursor init)).preorder,
        (extent (leavesOf init ++ last.leaves)).start ≤ n.span.start ∧
          n.span.stop = (extent (leavesOf init ++ last.leaves)).stop := fun n hn =>
      ⟨hstart.trans (hreach n hn).1, (hreach n hn).2.trans hstop.symm⟩
    rw [Phrase.plant] at hspan ⊢
    rw [Node.preorder, faulty_cons, faulty_plantAll_concat hinit hinitFull]
    generalize hnode : Node.mk id kind field _ _ = node at hspan ⊢
    have hself : ∀ n ∈ Node.faulty source .missingEnd [node], n = node := fun n hn =>
      List.mem_singleton.1 (List.mem_filter.1 hn).1
    constructor
    · refine List.forall_mem_append.2 ⟨fun n hn => ?_, hreach'⟩
      rw [hself n hn, hspan]
      exact ⟨Nat.le_refl _, rfl⟩
    · refine List.pairwise_append.2 ⟨?_, hsorted, fun n hn m hm => ?_⟩
      · exact (List.pairwise_singleton _ node).filter _
      · rw [hself n hn, hspan]
        exact (hreach' m hm).1

end FishScript
