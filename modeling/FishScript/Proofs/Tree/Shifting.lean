/-
# Trees behind other source

A phrase that is planted behind other phrases becomes the node that it becomes alone, except that
its numbers and its spans are further on (`plantAll_shift`); so do the sites below it
(`sitesOf_shift`).
-/
import Mathlib
import FishScript.Proofs.Grammar.Sequence
import FishScript.Proofs.Tree.Sites

namespace FishScript

/-! ## Shifted nodes -/

mutual

/-- The node with numbers further on by `i` and spans further on by `k`. -/
def Node.shift (i k : Nat) : Node → Node
  | ⟨id, kind, field, span, children⟩ =>
    ⟨id + i, kind, field, span.shift k, shiftNodes i k children⟩

/-- The nodes with numbers further on by `i` and spans further on by `k`. -/
def shiftNodes (i k : Nat) : List Node → List Node
  | [] => []
  | n :: rest => n.shift i k :: shiftNodes i k rest

end

lemma shiftNodes_eq_map (i k : Nat) (ns : List Node) :
    shiftNodes i k ns = ns.map (Node.shift i k) := by
  induction ns with
  | nil => rfl
  | cons n ns ih => rw [shiftNodes, ih, List.map_cons]

namespace Node

variable {i k : Nat} {n : Node}

@[simp] lemma kind_shift : (n.shift i k).kind = n.kind := by cases n; rfl

@[simp] lemma field_shift : (n.shift i k).field = n.field := by cases n; rfl

@[simp] lemma span_shift : (n.shift i k).span = n.span.shift k := by cases n; rfl

@[simp] lemma children_shift : (n.shift i k).children = n.children.map (Node.shift i k) := by
  cases n
  exact shiftNodes_eq_map i k _

@[simp] lemma isNamed_shift : (n.shift i k).isNamed = n.isNamed := by rw [isNamed, kind_shift]; rfl

@[simp] lemma isStatement_shift : (n.shift i k).isStatement = n.isStatement := by
  simp [isStatement]

end Node

mutual

theorem Node.shift_zero : ∀ n : Node, n.shift 0 0 = n
  | ⟨id, kind, field, span, children⟩ => by
    rw [Node.shift, shiftNodes_zero children]
    rfl

theorem shiftNodes_zero : ∀ ns : List Node, shiftNodes 0 0 ns = ns
  | [] => rfl
  | n :: ns => by rw [shiftNodes, n.shift_zero, shiftNodes_zero ns]

end

lemma map_shift_zero (ns : List Node) : ns.map (Node.shift 0 0) = ns := by
  rw [← shiftNodes_eq_map, shiftNodes_zero]

/-! ## Shifted phrases -/

lemma Span.cover_shift (k : Nat) (s t : Span) :
    (s.shift k).cover (t.shift k) = (s.cover t).shift k := by
  simp [cover, shift, Nat.add_min_add_right, Nat.add_max_add_right]

lemma spanOf_shift {ns : List Node} (hne : ns ≠ []) (i k cursor cursor' : Nat) :
    OpenNode.spanOf cursor' (ns.map (Node.shift i k)) = (OpenNode.spanOf cursor ns).shift k := by
  obtain ⟨first, rest, rfl⟩ := List.exists_cons_of_ne_nil hne
  obtain ⟨last, hlast⟩ := Option.ne_none_iff_exists'.1
    (mt List.getLast?_eq_none_iff.1 (List.cons_ne_nil first rest))
  rw [OpenNode.spanOf, OpenNode.spanOf, List.getLast?_map, hlast]
  simp [Span.cover_shift]

mutual

lemma Phrase.size_shift (k : Nat) : ∀ p : Phrase, (p.shift k).size = p.size
  | .leaf kind field span => rfl
  | .node kind field children => by rw [Phrase.shift, Phrase.size, Phrase.size, size_shiftPhrases]

lemma size_shiftPhrases (k : Nat) : ∀ ps : List Phrase, sizeOfAll (shiftPhrases k ps) = sizeOfAll ps
  | [] => rfl
  | p :: ps => by rw [shiftPhrases, sizeOfAll, sizeOfAll, p.size_shift k, size_shiftPhrases k ps]

end

mutual

theorem Phrase.plant_shift (i k : Nat) : ∀ (p : Phrase) (id cursor cursor' : Nat), p.Full →
    (p.shift k).plant (id + i) cursor' = (p.plant id cursor).shift i k
  | .leaf kind field span, id, cursor, cursor', _ => rfl
  | .node kind field children, id, cursor, cursor', .node hne hfull => by
    have hid : id + i + 1 = id + 1 + i := by omega
    have hnodes : (plantAll (id + 1) cursor children).reverse ≠ [] := by
      cases children with
      | nil => exact absurd rfl hne
      | cons => simp [plantAll]
    rw [Phrase.shift, Phrase.plant, Phrase.plant, Node.shift, hid,
      plantAll_shift i k children (id + 1) cursor cursor' hfull, shiftNodes_eq_map,
      ← List.map_reverse, spanOf_shift hnodes]

theorem plantAll_shift (i k : Nat) : ∀ (ps : List Phrase) (id cursor cursor' : Nat),
    (∀ p ∈ ps, p.Full) →
    plantAll (id + i) cursor' (shiftPhrases k ps) = shiftNodes i k (plantAll id cursor ps)
  | [], id, cursor, cursor', _ => rfl
  | p :: ps, id, cursor, cursor', h => by
    obtain ⟨hp, hps⟩ := List.forall_mem_cons.1 h
    have hid : id + i + p.size = id + p.size + i := by omega
    rw [shiftPhrases, plantAll, plantAll, shiftNodes, p.plant_shift i k id cursor cursor' hp,
      p.size_shift, hid, plantAll_shift i k ps (id + p.size) (p.reach cursor) _ hps]

end

/-! ## Shifted sites -/

/-- The site of a shifted node. -/
def Site.shift (i k : Nat) (s : Site) : Site :=
  ⟨s.node.shift i k, s.parent.map (Node.shift i k), s.before.map (Node.shift i k),
    s.after.map (Node.shift i k)⟩

mutual

theorem Node.sites_shift (i k : Nat) : ∀ (n : Node) (parent : Option Node)
    (before after : List Node),
    (n.shift i k).sites (parent.map (Node.shift i k)) (before.map (Node.shift i k))
        (after.map (Node.shift i k)) = (n.sites parent before after).map (Site.shift i k)
  | ⟨id, kind, field, span, children⟩, parent, before, after => by
    have hbelow := sitesOf_shift i k children ⟨id, kind, field, span, children⟩ []
    rw [Node.sites_eq, Node.sites_eq, List.map_cons, ← hbelow]
    rfl

theorem sitesOf_shift (i k : Nat) : ∀ (ns : List Node) (parent : Node) (before : List Node),
    sitesOf (parent.shift i k) (before.map (Node.shift i k)) (shiftNodes i k ns) =
      (sitesOf parent before ns).map (Site.shift i k)
  | [], parent, before => rfl
  | n :: ns, parent, before => by
    rw [shiftNodes, sitesOf, sitesOf, List.map_append, ← sitesOf_shift i k ns parent (n :: before),
      ← n.sites_shift i k (some parent) before ns, shiftNodes_eq_map]
    rfl

end

/-! ## Where nodes end -/

lemma stop_spanOf_le {ns : List Node} (hne : ns ≠ []) {bound cursor : Nat}
    (h : ∀ n ∈ ns, n.span.stop ≤ bound) : (OpenNode.spanOf cursor ns).stop ≤ bound := by
  obtain ⟨first, rest, rfl⟩ := List.exists_cons_of_ne_nil hne
  obtain ⟨last, hlast⟩ := Option.ne_none_iff_exists'.1
    (mt List.getLast?_eq_none_iff.1 (List.cons_ne_nil first rest))
  rw [OpenNode.spanOf, hlast]
  exact max_le (h last (List.mem_of_getLast? hlast)) (h first List.mem_cons_self)

mutual

/-- No node of a phrase ends behind its leaves. -/
theorem Phrase.stop_plant_le {bound : Nat} : ∀ (p : Phrase) (id cursor : Nat), p.Full →
    (∀ l ∈ p.leaves, l.span.stop ≤ bound) →
    ∀ n ∈ (p.plant id cursor).preorder, n.span.stop ≤ bound
  | .leaf kind field span, id, cursor, _, h, n, hn => by
    rw [List.mem_singleton.1 hn]
    exact h _ List.mem_cons_self
  | .node kind field children, id, cursor, .node hne hfull, h, n, hn => by
    have hbelow := stop_plantAll_le children (id + 1) cursor hfull h
    rcases List.mem_cons.1 hn with rfl | hn
    · refine stop_spanOf_le ?_ fun n hn => ?_
      · cases children with
        | nil => exact absurd rfl hne
        | cons => simp [plantAll]
      · exact hbelow n ((sublist_preorderAll _).subset (List.mem_reverse.1 hn))
    · exact hbelow n hn

theorem stop_plantAll_le {bound : Nat} : ∀ (ps : List Phrase) (id cursor : Nat),
    (∀ p ∈ ps, p.Full) → (∀ l ∈ leavesOf ps, l.span.stop ≤ bound) →
    ∀ n ∈ preorderAll (plantAll id cursor ps), n.span.stop ≤ bound
  | p :: ps, id, cursor, hfull, h, n, hn => by
    obtain ⟨hp, hps⟩ := List.forall_mem_cons.1 hfull
    obtain ⟨hfirst, hrest⟩ := List.forall_mem_append.1 h
    rcases List.mem_append.1 hn with hn | hn
    · exact p.stop_plant_le id cursor hp hfirst n hn
    · exact stop_plantAll_le ps _ _ hps hrest n hn

end

end FishScript
