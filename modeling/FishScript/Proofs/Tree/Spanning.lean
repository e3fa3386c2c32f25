/-
# Spans of built nodes

A closed node gets its span from its first and its last child only, and one without children from
where the leaves have come to. When the leaves are added in order this is enough: every node reaches
exactly from its first child to its last, the children stand side by side in between, and so every
node covers all nodes below it (`build_spans`).

Balanced calls are those of some phrases, one after the other (`exists_eq_callsOf`), so this is an
induction over phrases: a phrase that is planted behind some leaves starts no earlier than these
end, and ends where its own leaves have come to.
-/
import Mathlib
import FishScript.Proofs.Tree.Extent
import FishScript.Proofs.Tree.Links

namespace FishScript

/-! ## What calls add -/

namespace BuildCall

/-- The span of the leaf that a call adds. -/
def leafSpan? : BuildCall → Option Span
  | .token _ _ span => some span
  | _ => none

end BuildCall

/-- The spans of the leaves that calls add, in order. -/
def leafSpans (calls : List BuildCall) : List Span := calls.filterMap BuildCall.leafSpan?

/-- The greatest end of a leaf that calls add, 0 if there are none. -/
def greatestEnd (calls : List BuildCall) : Nat := ((leafSpans calls).map Span.stop).foldr max 0

/-- The number of nodes that calls open or add. -/
def nodeCount (calls : List BuildCall) : Nat := calls.countP (!·.closes)

section Calls

variable {calls calls' : List BuildCall}

@[simp] lemma greatestEnd_nil : greatestEnd [] = 0 := rfl

@[simp] lemma greatestEnd_append :
    greatestEnd (calls ++ calls') = max (greatestEnd calls) (greatestEnd calls') := by
  rw [greatestEnd, leafSpans, List.filterMap_append, List.map_append, List.foldr_append,
    ← leafSpans, ← leafSpans, ← greatestEnd, ← Nat.zero_max (greatestEnd calls'), List.foldr_assoc,
    ← greatestEnd, Nat.zero_max]

@[simp] lemma nodeCount_nil : nodeCount [] = 0 := rfl

@[simp] lemma nodeCount_append :
    nodeCount (calls ++ calls') = nodeCount calls + nodeCount calls' := List.countP_append

lemma leafSpans_calls_node (kind : NodeKind) (field : Option Field) (children : List Phrase) :
    leafSpans (Phrase.node kind field children).calls = leafSpans (callsOf children) := by
  rw [Phrase.calls, leafSpans, List.filterMap_cons_none rfl, List.filterMap_append,
    List.filterMap_cons_none rfl, List.filterMap_nil, List.append_nil, leafSpans]

mutual

lemma Phrase.leafSpans_calls : ∀ p : Phrase, leafSpans p.calls = p.leaves.map Leaf.span
  | .leaf kind field span => rfl
  | .node kind field children => by
    rw [Phrase.leaves, ← leafSpans_callsOf children]
    exact leafSpans_calls_node kind field children

lemma leafSpans_callsOf : ∀ ps : List Phrase,
    leafSpans (callsOf ps) = (leavesOf ps).map Leaf.span
  | [] => rfl
  | p :: ps => by
    rw [callsOf, leafSpans, List.filterMap_append, ← leafSpans, ← leafSpans, p.leafSpans_calls,
      leafSpans_callsOf ps, leavesOf, List.map_append]

end

mutual

lemma Phrase.reach_eq : ∀ (p : Phrase) (cursor : Nat),
    p.reach cursor = max cursor (greatestEnd p.calls)
  | .leaf kind field span, cursor => by
    simp [Phrase.reach, Phrase.calls, greatestEnd, leafSpans, BuildCall.leafSpan?]
  | .node kind field children, cursor => by
    rw [Phrase.reach, reachOfAll_eq children, greatestEnd, greatestEnd, leafSpans_calls_node]

lemma reachOfAll_eq : ∀ (ps : List Phrase) (cursor : Nat),
    reachOfAll cursor ps = max cursor (greatestEnd (callsOf ps))
  | [], cursor => by simp [reachOfAll, callsOf]
  | p :: ps, cursor => by
    rw [reachOfAll, reachOfAll_eq ps, p.reach_eq, callsOf, greatestEnd_append, max_assoc]

end

mutual

lemma Phrase.nodeCount_calls : ∀ p : Phrase, nodeCount p.calls = p.size
  | .leaf kind field span => rfl
  | .node kind field children => by
    rw [Phrase.size, ← nodeCount_callsOf children]
    simp [Phrase.calls, nodeCount, BuildCall.closes]

lemma nodeCount_callsOf : ∀ ps : List Phrase, nodeCount (callsOf ps) = sizeOfAll ps
  | [] => rfl
  | p :: ps => by
    rw [callsOf, nodeCount_append, p.nodeCount_calls, nodeCount_callsOf ps, sizeOfAll]

end

end Calls

/-! ## Balanced calls -/

/-- A node that calls have opened, with the phrases in it. -/
structure OpenPhrase where
  /-- What it stands for. -/
  kind : NodeKind
  /-- Its role in the node that holds it. -/
  field : Option Field
  /-- What it holds so far, in order. -/
  phrases : List Phrase

/-- The calls that have led to open nodes, the outermost first. -/
def callsOfOpen (opened : List OpenPhrase) : List BuildCall :=
  opened.flatMap fun o => .start o.kind o.field :: callsOf o.phrases

section Balanced

variable {calls : List BuildCall} {ps : List Phrase} {opened : List OpenPhrase}

lemma callsOf_append (ps qs : List Phrase) : callsOf (ps ++ qs) = callsOf ps ++ callsOf qs := by
  induction ps with
  | nil => rfl
  | cons p ps ih => rw [List.cons_append, callsOf, callsOf, ih, List.append_assoc]

lemma callsOf_concat (ps : List Phrase) (p : Phrase) :
    callsOf (ps ++ [p]) = callsOf ps ++ p.calls := by
  rw [callsOf_append, callsOf, callsOf, List.append_nil]

lemma callsOfOpen_concat (opened : List OpenPhrase) (o : OpenPhrase) :
    callsOfOpen (opened ++ [o]) =
      callsOfOpen opened ++ .start o.kind o.field :: callsOf o.phrases := by
  rw [callsOfOpen, List.flatMap_append, List.flatMap_singleton]
  rfl

/-- The calls of one more phrase put it into the innermost open node. -/
lemma exists_callsOf_append_calls (ps : List Phrase) (opened : List OpenPhrase) (p : Phrase) :
    ∃ ps' opened', opened'.length = opened.length ∧
      callsOf ps ++ callsOfOpen opened ++ p.calls = callsOf ps' ++ callsOfOpen opened' := by
  rcases List.eq_nil_or_concat' opened with rfl | ⟨outer, o, rfl⟩
  · refine ⟨ps ++ [p], [], rfl, ?_⟩
    rw [callsOf_concat]
    simp [callsOfOpen]
  · refine ⟨ps, outer ++ [{ o with phrases := o.phrases ++ [p] }], by simp, ?_⟩
    rw [callsOfOpen_concat, callsOfOpen_concat, callsOf_concat]
    simp

/-- Unless too many nodes are closed, calls are those of phrases and of nodes that are still
open. -/
lemma exists_eq_callsOf_append (h : ¬ Overdrawn calls) :
    ∃ ps opened, calls = callsOf ps ++ callsOfOpen opened ∧
      openCount calls = closeCount calls + opened.length := by
  induction calls using List.reverseRecOn with
  | nil => exact ⟨[], [], rfl, rfl⟩
  | append_singleton calls call ih =>
    rw [overdrawn_concat, not_or] at h
    obtain ⟨hcalls, hcount⟩ := h
    obtain ⟨ps, opened, heq, hlength⟩ := ih hcalls
    rw [openCount_concat, closeCount_concat] at hcount ⊢
    cases call with
    | start kind field =>
      refine ⟨ps, opened ++ [⟨kind, field, []⟩], ?_, ?_⟩
      · rw [callsOfOpen_concat, heq, List.append_assoc]
        rfl
      · simp only [BuildCall.opens, BuildCall.closes, List.length_append, List.length_singleton,
          if_true, Bool.false_eq_true, if_false]
        omega
    | token kind field span =>
      obtain ⟨ps', opened', hlength', heq'⟩ :=
        exists_callsOf_append_calls ps opened (.leaf kind field span)
      refine ⟨ps', opened', by rw [heq, ← heq']; rfl, ?_⟩
      simp only [BuildCall.opens, BuildCall.closes, Bool.false_eq_true, if_false]
      omega
    | finish =>
      simp only [BuildCall.opens, BuildCall.closes, Bool.false_eq_true, if_false, if_true]
        at hcount ⊢
      rcases List.eq_nil_or_concat' opened with rfl | ⟨outer, o, rfl⟩
      · rw [List.length_nil] at hlength
        omega
      · -- the innermost open node becomes a phrase of the one around it
        obtain ⟨ps', opened', hlength', heq'⟩ :=
          exists_callsOf_append_calls ps outer (.node o.kind o.field o.phrases)
        refine ⟨ps', opened', ?_, ?_⟩
        · rw [heq, ← heq', callsOfOpen_concat, Phrase.calls]
          simp
        · rw [List.length_append, List.length_singleton] at hlength
          omega

/-- Balanced calls are those of phrases. -/
theorem exists_eq_callsOf (h : ¬ Overdrawn calls) (hcount : openCount calls = closeCount calls) :
    ∃ ps, calls = callsOf ps := by
  obtain ⟨ps, opened, heq, hlength⟩ := exists_eq_callsOf_append h
  obtain rfl : opened = [] := List.eq_nil_of_length_eq_zero (by omega)
  exact ⟨ps, by rw [heq]; exact List.append_nil _⟩

lemma build_callsOf (source : Text) (ps : List Phrase) :
    Tree.build source (callsOf ps) = .ok ⟨source, plantAll 0 0 ps⟩ := by
  have hrun : ∀ (ps : List Phrase) (b : Builder), b.opened = [] → b.run (callsOf ps) =
      { b with
        tops := (plantAll b.count b.cursor ps).reverse ++ b.tops
        count := b.count + sizeOfAll ps
        cursor := reachOfAll b.cursor ps } := by
    intro ps
    induction ps with
    | nil => exact fun b _ => rfl
    | cons p ps ih =>
      intro b hb
      have hplanted : b.planted (p.plant b.count b.cursor) p.size (p.reach b.cursor) =
          { b with
            tops := p.plant b.count b.cursor :: b.tops
            count := b.count + p.size
            cursor := p.reach b.cursor } := by
        simp [Builder.planted, Builder.attach, hb]
      have hrest := ih (b.planted (p.plant b.count b.cursor) p.size (p.reach b.cursor))
        (by rw [hplanted]; exact hb)
      rw [callsOf, Builder.run_append, Builder.run_calls, hrest, hplanted]
      simp [plantAll, sizeOfAll, reachOfAll, Nat.add_assoc]
  rw [Tree.build, hrun ps .empty rfl]
  simp [Builder.finish, Builder.empty]

end Balanced

/-! ## Spans of planted nodes -/

/-- The second span lies inside the first. -/
def Span.Contains (s s' : Span) : Prop := s.start ≤ s'.start ∧ s'.stop ≤ s.stop

lemma Span.Contains.trans {s s' s'' : Span} (h : s.Contains s') (h' : s'.Contains s'') :
    s.Contains s'' := ⟨h.1.trans h'.1, h'.2.trans h.2⟩

/-- The node reaches from the start of its first child to the end of its last, and the children
stand side by side. -/
structure Node.Spanning (n : Node) : Prop where
  forward : n.span.start ≤ n.span.stop
  inOrder : InOrder (n.children.map Node.span)
  reaches : ∀ first ∈ n.children.head?, ∀ last ∈ n.children.getLast?,
    n.span = ⟨first.span.start, last.span.stop⟩

section Spanning

variable {n m : Node} {ns : List Node}

lemma InOrder.head_le {first : Node} (h : InOrder (ns.map Node.span)) (hfirst : first ∈ ns.head?)
    (hm : m ∈ ns) : first.span.start ≤ m.span.start := by
  obtain ⟨rest, rfl⟩ := List.head?_eq_some_iff.1 hfirst
  obtain ⟨hforward, hlater, -⟩ := InOrder.cons_iff.1 h
  rcases List.mem_cons.1 hm with rfl | hm
  · exact Nat.le_refl _
  · exact hforward.trans (hlater m.span (List.mem_map_of_mem hm))

lemma InOrder.le_last {last : Node} (h : InOrder (ns.map Node.span)) (hlast : last ∈ ns.getLast?)
    (hm : m ∈ ns) : m.span.stop ≤ last.span.stop := by
  obtain ⟨front, rfl⟩ := List.getLast?_eq_some_iff.1 hlast
  rw [List.map_append] at h
  obtain ⟨-, hend, hbetween⟩ := InOrder.append_iff.1 h
  rcases List.mem_append.1 hm with hm | hm
  · have hforward : last.span.start ≤ last.span.stop := hend.forward last.span List.mem_cons_self
    exact (hbetween _ (List.mem_map_of_mem hm) _ List.mem_cons_self).trans hforward
  · rw [List.mem_singleton.1 hm]

lemma Node.Spanning.contains_child (h : n.Spanning) (hm : m ∈ n.children) :
    n.span.Contains m.span := by
  have hne : n.children ≠ [] := List.ne_nil_of_mem hm
  have hfirst := List.head?_eq_some_head hne
  have hlast := List.getLast?_eq_some_getLast hne
  rw [h.reaches _ hfirst _ hlast]
  exact ⟨h.inOrder.head_le hfirst hm, h.inOrder.le_last hlast hm⟩

mutual

/-- Where all nodes span their children, a node covers the nodes below it. -/
theorem Node.contains_of_mem_preorder : ∀ {n : Node}, (∀ m ∈ n.preorder, m.Spanning) →
    ∀ m ∈ n.preorder, n.span.Contains m.span
  | ⟨id, kind, field, span, children⟩, h, m, hm => by
    rw [Node.preorder, List.forall_mem_cons] at h
    rcases List.mem_cons.1 hm with rfl | hm
    · exact ⟨Nat.le_refl _, Nat.le_refl _⟩
    · obtain ⟨c, hc, hcontains⟩ := exists_contains_of_mem_preorderAll h.2 m hm
      exact (h.1.contains_child hc).trans hcontains

theorem exists_contains_of_mem_preorderAll : ∀ {ns : List Node},
    (∀ m ∈ preorderAll ns, m.Spanning) → ∀ m ∈ preorderAll ns, ∃ n ∈ ns, n.span.Contains m.span
  | n :: ns, h, m, hm => by
    rw [preorderAll, List.forall_mem_append] at h
    rcases List.mem_append.1 hm with hm | hm
    · exact ⟨n, List.mem_cons_self, Node.contains_of_mem_preorder h.1 m hm⟩
    · obtain ⟨n', hn', hcontains⟩ := exists_contains_of_mem_preorderAll h.2 m hm
      exact ⟨n', List.mem_cons_of_mem n hn', hcontains⟩

end

end Spanning

section Planted

variable {ps : List Phrase} {id cursor : Nat}

/-- Where a leaf stands behind the leaves of a phrase and what comes before it, it stands behind
where the phrase has come to. -/
lemma Phrase.reach_le {p : Phrase} {k : Nat} (hcursor : cursor ≤ k)
    (h : ∀ l ∈ p.leaves, l.span.stop ≤ k) : p.reach cursor ≤ k := by
  rw [p.reach_eq, greatestEnd, p.leafSpans_calls]
  refine max_le hcursor (List.max_le_of_forall_le _ k ?_)
  simpa using h

/-- Where a node is closed over nodes in order, behind the leaves before them, it reaches from the
first to the last; over none it is empty where the leaves have come to. -/
lemma closed_span {ns : List Node} {reach : Nat} (hin : InOrder (ns.map Node.span))
    (hstarts : ∀ n ∈ ns, cursor ≤ n.span.start)
    (hstop : ∀ last ∈ ns.getLast?, last.span.stop = reach) (hreach : cursor ≤ reach) :
    (cursor ≤ (OpenNode.spanOf reach ns.reverse).start ∧
      (OpenNode.spanOf reach ns.reverse).stop = reach) ∧
    (OpenNode.spanOf reach ns.reverse).start ≤ (OpenNode.spanOf reach ns.reverse).stop ∧
    ∀ first ∈ ns.head?, ∀ last ∈ ns.getLast?,
      OpenNode.spanOf reach ns.reverse = ⟨first.span.start, last.span.stop⟩ := by
  rcases ns with _ | ⟨n, ns⟩
  · exact ⟨⟨hreach, rfl⟩, Nat.le_refl _, fun _ h => by cases h⟩
  · have hlast := List.getLast?_eq_some_getLast (List.cons_ne_nil n ns)
    generalize (n :: ns).getLast (List.cons_ne_nil n ns) = last at hlast
    have hmem : last ∈ n :: ns := List.mem_of_mem_getLast? hlast
    have hstart : n.span.start ≤ last.span.start := hin.head_le rfl hmem
    have hend : n.span.stop ≤ last.span.stop := hin.le_last hlast List.mem_cons_self
    have hforward : last.span.start ≤ last.span.stop := hin.forward _ (List.mem_map_of_mem hmem)
    have hspan : OpenNode.spanOf reach (n :: ns).reverse = ⟨n.span.start, last.span.stop⟩ := by
      have hlastSpan : ((n :: ns).map Node.span).getLast? = some last.span := by
        rw [List.getLast?_map, hlast]
        rfl
      rw [spanOf_reverse reach rfl hlastSpan, Span.cover, min_eq_left hstart, max_eq_right hend]
    rw [hspan]
    refine ⟨⟨hstarts n List.mem_cons_self, hstop last hlast⟩, hstart.trans hforward, ?_⟩
    intro first hfirst last' hlast'
    rw [Option.some_inj.1 hfirst, Option.some_inj.1 (hlast.symm.trans hlast')]

mutual

/-- A phrase whose leaves stand in order behind some others, planted there, starts no earlier than
these end and ends where its own leaves have come to, and all its nodes span their children. -/
theorem Phrase.spanning_plant : ∀ (p : Phrase) (id cursor : Nat), LeavesInOrder p.leaves →
    (∀ l ∈ p.leaves, cursor ≤ l.span.start) →
      (cursor ≤ (p.plant id cursor).span.start ∧ (p.plant id cursor).span.stop = p.reach cursor) ∧
        ∀ n ∈ (p.plant id cursor).preorder, n.Spanning
  | .leaf kind field span, id, cursor, horder, hbehind => by
    have hstart : cursor ≤ span.start := hbehind _ List.mem_cons_self
    have hforward : span.start ≤ span.stop := horder.forward span List.mem_cons_self
    refine ⟨⟨hstart, (max_eq_right (hstart.trans hforward)).symm⟩, fun n hn => ?_⟩
    rw [List.mem_singleton.1 hn]
    exact ⟨hforward, .nil, fun _ h => by cases h⟩
  | .node kind field children, id, cursor, horder, hbehind => by
    obtain ⟨hin, hstarts, hstop, hbelow⟩ :=
      spanning_plantAll children (id + 1) cursor horder hbehind
    have hreach : cursor ≤ reachOfAll cursor children := by
      rw [reachOfAll_eq]
      exact le_max_left _ _
    obtain ⟨hends, hforward, hreaches⟩ := closed_span hin hstarts hstop hreach
    rw [Phrase.plant, Node.preorder]
    exact ⟨hends, List.forall_mem_cons.2 ⟨⟨hforward, hin, hreaches⟩, hbelow⟩⟩

theorem spanning_plantAll : ∀ (ps : List Phrase) (id cursor : Nat), LeavesInOrder (leavesOf ps) →
    (∀ l ∈ leavesOf ps, cursor ≤ l.span.start) →
      InOrder ((plantAll id cursor ps).map Node.span) ∧
        (∀ n ∈ plantAll id cursor ps, cursor ≤ n.span.start) ∧
        (∀ last ∈ (plantAll id cursor ps).getLast?, last.span.stop = reachOfAll cursor ps) ∧
        ∀ n ∈ preorderAll (plantAll id cursor ps), n.Spanning
  | [], id, cursor, _, _ => ⟨.nil, fun _ h => (by cases h), fun _ h => (by cases h),
      fun _ h => (by cases h)⟩
  | p :: ps, id, cursor, horder, hbehind => by
    obtain ⟨hp, hps, hbetween⟩ := LeavesInOrder.append_iff.1 horder
    obtain ⟨hbehind, hlater⟩ := List.forall_mem_append.1 hbehind
    have hreach : ∀ l ∈ leavesOf ps, p.reach cursor ≤ l.span.start := fun l hl =>
      p.reach_le (hlater l hl) fun l' hl' => hbetween l' hl' l hl
    obtain ⟨⟨hstart, hstop⟩, hbelow⟩ := p.spanning_plant id cursor hp hbehind
    obtain ⟨hin, hstarts, hstops, hbelows⟩ :=
      spanning_plantAll ps (id + p.size) (p.reach cursor) hps hreach
    have hcursor : cursor ≤ p.reach cursor := by
      rw [p.reach_eq]
      exact le_max_left _ _
    refine ⟨InOrder.cons_iff.2 ⟨?_, ?_, hin⟩, List.forall_mem_cons.2 ⟨hstart, fun n hn => ?_⟩, ?_,
      List.forall_mem_append.2 ⟨hbelow, hbelows⟩⟩
    · exact (hbelow _ (Node.mem_preorder_self _)).forward
    · rw [hstop]
      exact List.forall_mem_map.2 hstarts
    · exact hcursor.trans (hstarts n hn)
    · intro last hlast
      cases ps with
      | nil =>
        rw [plantAll, plantAll, List.getLast?_singleton] at hlast
        rw [← Option.some_inj.1 hlast, hstop]
        rfl
      | cons q qs =>
        rw [plantAll, plantAll, List.getLast?_cons_cons] at hlast
        exact hstops last hlast

end

end Planted

/-! ## Nodes without children -/

section Childless

lemma append_eq_append_cons {α : Type*} {xs ys front rest : List α} {a : α}
    (h : xs ++ ys = front ++ a :: rest) :
    (∃ rest', xs = front ++ a :: rest' ∧ rest = rest' ++ ys) ∨
      ∃ front', front = xs ++ front' ∧ ys = front' ++ a :: rest := by
  obtain ⟨between, rfl, hys⟩ | ⟨between, rfl, hrest⟩ := List.append_eq_append_iff.1 h
  · exact .inr ⟨between, rfl, hys⟩
  · rcases between with _ | ⟨b, between⟩
    · exact .inr ⟨[], by simp, hrest.symm⟩
    · obtain ⟨rfl, rfl⟩ := List.cons.inj hrest
      exact .inl ⟨between, rfl, rfl⟩

/-- What becomes of the node that a call opens behind the calls `front`, when `rest` follows: it has
the next number and, if nothing comes into it, is closed at once and empty where the leaves before
it have come to. -/
structure Node.OpenedBy (front : List BuildCall) (kind : NodeKind) (field : Option Field)
    (rest : List BuildCall) (id cursor : Nat) (n : Node) : Prop where
  id : n.id = id + nodeCount front
  kind : n.kind = kind
  field : n.field = field
  childless : n.children = [] →
    rest.head? = some .finish ∧ n.span = .empty (max cursor (greatestEnd front))

mutual

/-- The call that opens a node of a phrase opens a node of the planted phrase. -/
theorem Phrase.exists_openedBy : ∀ (p : Phrase) (id cursor : Nat) {front rest : List BuildCall}
    {kind : NodeKind} {field : Option Field}, p.calls = front ++ .start kind field :: rest →
      ∃ n ∈ (p.plant id cursor).preorder, n.OpenedBy front kind field rest id cursor
  | .leaf kind' field' span, id, cursor, front, rest, kind, field, h => by
    rcases front with _ | ⟨call, front⟩
    · cases h
    · obtain ⟨-, hnil⟩ := List.cons.inj h
      simp at hnil
  | .node kind' field' children, id, cursor, front, rest, kind, field, h => by
    rcases front with _ | ⟨call, front⟩
    · obtain ⟨hcall, rfl⟩ := List.cons.inj h
      obtain ⟨rfl, rfl⟩ : kind' = kind ∧ field' = field := by simpa using hcall
      refine ⟨_, Node.mem_preorder_self _, rfl, rfl, rfl, fun hchildren => ?_⟩
      have hnone : children = [] := by
        cases children with
        | nil => rfl
        | cons p ps => cases hchildren
      subst hnone
      exact ⟨rfl, congrArg Span.empty (Nat.max_zero cursor).symm⟩
    · -- the call opens a node below, so the closing call of this one comes later
      obtain ⟨hcall, hcalls⟩ := List.cons.inj h
      obtain ⟨rest', hchildren, rfl⟩ | ⟨front', -, hlast⟩ := append_eq_append_cons hcalls
      · obtain ⟨n, hn, hid, hkind, hfield, hchildless⟩ :=
          exists_openedBy_plantAll children (id + 1) cursor hchildren
        rw [Phrase.plant, Node.preorder]
        refine ⟨n, List.mem_cons_of_mem _ hn, ?_, hkind, hfield, fun hnone => ?_⟩
        · rw [hid, ← hcall, nodeCount, nodeCount, List.countP_cons_of_pos (by rfl)]
          omega
        · obtain ⟨hnext, hspan⟩ := hchildless hnone
          refine ⟨?_, ?_⟩
          · rw [List.head?_append, hnext]
            rfl
          · rw [hspan, ← hcall]
            rfl
      · rcases front' with _ | ⟨_, _ | _⟩ <;> simp at hlast

theorem exists_openedBy_plantAll : ∀ (ps : List Phrase) (id cursor : Nat)
    {front rest : List BuildCall} {kind : NodeKind} {field : Option Field},
    callsOf ps = front ++ .start kind field :: rest →
      ∃ n ∈ preorderAll (plantAll id cursor ps), n.OpenedBy front kind field rest id cursor
  | [], id, cursor, front, rest, kind, field, h => by simp [callsOf] at h
  | p :: ps, id, cursor, front, rest, kind, field, h => by
    rw [callsOf] at h
    rw [plantAll, preorderAll]
    obtain ⟨rest', hp, rfl⟩ | ⟨front', rfl, hps⟩ := append_eq_append_cons h
    · obtain ⟨n, hn, hid, hkind, hfield, hchildless⟩ := p.exists_openedBy id cursor hp
      refine ⟨n, List.mem_append_left _ hn, hid, hkind, hfield, fun hnone => ?_⟩
      obtain ⟨hnext, hspan⟩ := hchildless hnone
      refine ⟨?_, hspan⟩
      rw [List.head?_append, hnext]
      rfl
    · obtain ⟨n, hn, hid, hkind, hfield, hchildless⟩ :=
        exists_openedBy_plantAll ps (id + p.size) (p.reach cursor) hps
      refine ⟨n, List.mem_append_right _ hn, ?_, hkind, hfield, fun hnone => ?_⟩
      · rw [hid, nodeCount_append, p.nodeCount_calls, Nat.add_assoc]
      · obtain ⟨hnext, hspan⟩ := hchildless hnone
        refine ⟨hnext, ?_⟩
        rw [hspan, greatestEnd_append, p.reach_eq, max_assoc]

end

end Childless

/-! ## Built trees -/

/-- Balanced calls that add their leaves in order build a tree in which every node covers the nodes
below it, siblings stand side by side, and a node with children reaches exactly from the first to
the last. The node that a call opens has the number of the nodes before it; if it has no children,
it is empty at the greatest end of a leaf before it, and is closed by the next call. -/
theorem build_spans (source : Text) {calls : List BuildCall}
    (hbalanced : ¬ Overdrawn calls ∧ openCount calls = closeCount calls)
    (horder : InOrder (leafSpans calls)) :
    ∃ t, Tree.build source calls = .ok t ∧ Arena.build source calls = .ok t.arena ∧
      InOrder (t.tops.map Node.span) ∧
      (∀ n ∈ t.nodes, (∀ m ∈ n.preorder, n.span.Contains m.span) ∧
        InOrder (n.children.map Node.span) ∧
        ∀ first ∈ n.children.head?, ∀ last ∈ n.children.getLast?,
          n.span = ⟨first.span.start, last.span.stop⟩) ∧
      ∀ front kind field rest, calls = front ++ .start kind field :: rest →
        ∃ n, t.node (nodeCount front) = .ok n ∧ n.kind = kind ∧ n.field = field ∧
          (n.children = [] →
            rest.head? = some .finish ∧ n.span = .empty (greatestEnd front)) := by
  obtain ⟨ps, rfl⟩ := exists_eq_callsOf hbalanced.1 hbalanced.2
  have hbuild := build_callsOf source ps
  have horder' : LeavesInOrder (leavesOf ps) := by
    rw [LeavesInOrder, ← leafSpans_callsOf]
    exact horder
  obtain ⟨hin, -, -, hspanning⟩ := spanning_plantAll ps 0 0 horder' fun l _ => Nat.zero_le _
  refine ⟨_, hbuild, by rw [arena_build, hbuild]; rfl, hin, fun n hn => ?_, ?_⟩
  · have hn' := hspanning n hn
    have hbelow : ∀ m ∈ n.preorder, m.Spanning := fun m hm =>
      hspanning m ((preorder_sublist_all hn).subset hm)
    exact ⟨Node.contains_of_mem_preorder hbelow, hn'.inOrder, hn'.reaches⟩
  · intro front kind field rest hcalls
    obtain ⟨n, hn, hid, hkind, hfield, hchildless⟩ := exists_openedBy_plantAll ps 0 0 hcalls
    have hnumbered : Tree.Numbered ⟨source, plantAll 0 0 ps⟩ := map_id_nodes hbuild
    refine ⟨n, ?_, hkind, hfield, fun hnone => ?_⟩
    · rw [← hnumbered.node_eq hn, hid, Nat.zero_add]
    · obtain ⟨hnext, hspan⟩ := hchildless hnone
      exact ⟨hnext, by rw [hspan, Nat.zero_max]⟩

/-- Empty nodes as first and last child and inside one another, and a leaf without text. -/
def hollowCalls : List BuildCall :=
  [.start .program none, .start .command none, .finish, .token .word none ⟨2, 4⟩,
    .start .pipeline none, .token .operator none ⟨4, 4⟩, .start .command none, .finish, .finish,
    .start .beginStatement none, .start .command none, .finish, .finish, .finish]

/-- In their tree the first empty node stands at 0, the others at 4. -/
theorem build_spans_hollow :
    (¬ Overdrawn hollowCalls ∧ openCount hollowCalls = closeCount hollowCalls) ∧
    InOrder (leafSpans hollowCalls) ∧
    ∃ t, Tree.build "a bc".toList hollowCalls = .ok t ∧
      t.nodes.map Node.span =
        [⟨0, 4⟩, ⟨0, 0⟩, ⟨2, 4⟩, ⟨4, 4⟩, ⟨4, 4⟩, ⟨4, 4⟩, ⟨4, 4⟩, ⟨4, 4⟩] ∧
      (∀ n ∈ t.nodes, ∀ m ∈ n.preorder, n.span.Contains m.span) ∧
      ∃ n, t.node 1 = .ok n ∧ n.kind = .command ∧ n.children = [] ∧ n.span = .empty 0 := by
  have hbuilds : ∃ t, Tree.build "a bc".toList hollowCalls = .ok t := ⟨_, rfl⟩
  have hbalanced := build_ok_iff.1 hbuilds
  have horder : InOrder (leafSpans hollowCalls) := ⟨by decide, by decide⟩
  obtain ⟨t, ht, -, -, hnodes, hopened⟩ := build_spans "a bc".toList hbalanced horder
  obtain ⟨n, hn, hkind, -, hchildless⟩ := hopened [.start .program none] .command none _ rfl
  have hspans : t.nodes.map Node.span =
      [⟨0, 4⟩, ⟨0, 0⟩, ⟨2, 4⟩, ⟨4, 4⟩, ⟨4, 4⟩, ⟨4, 4⟩, ⟨4, 4⟩, ⟨4, 4⟩] := by
    obtain rfl := Except.ok.inj ht
    rfl
  have hnone : n.children = [] := by
    obtain rfl := Except.ok.inj ht
    obtain rfl := Except.ok.inj hn
    rfl
  exact ⟨hbalanced, horder, t, ht, hspans, fun n hn => (hnodes n hn).1, n, hn, hkind, hnone,
    (hchildless hnone).2⟩

end FishScript
