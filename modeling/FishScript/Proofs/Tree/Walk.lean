/-
# The walk and the source

The walk over a tree visits each node before the nodes below it. Where every node spans its
children, whatever the walk visits after a node is below it or stands behind it
(`Node.pairwise_preorder`). So the starts of the nodes never decrease along the walk, and of two
nodes in the tree of a source one is before the other (`trichotomy`).
-/
import Mathlib
import FishScript.Proofs.Tree.Pieces
import FishScript.Proofs.Tree.Spanning

namespace FishScript

/-- The second node is below the first or stands behind it. -/
def Node.Leads (n m : Node) : Prop := m ∈ preorderAll n.children ∨ n.span.stop ≤ m.span.start

section Walk

variable {n m : Node} {ns : List Node}

mutual

/-- Where all nodes span their children, the walk visits after a node what is below it or stands
behind it. -/
theorem Node.pairwise_preorder : ∀ {n : Node}, (∀ m ∈ n.preorder, m.Spanning) →
    n.preorder.Pairwise Node.Leads
  | ⟨id, kind, field, span, children⟩, h => by
    rw [Node.preorder] at h ⊢
    obtain ⟨hn, hbelow⟩ := List.forall_mem_cons.1 h
    exact List.pairwise_cons.2 ⟨fun m hm => .inl hm, pairwise_preorderAll hn.inOrder hbelow⟩

theorem pairwise_preorderAll : ∀ {ns : List Node}, InOrder (ns.map Node.span) →
    (∀ m ∈ preorderAll ns, m.Spanning) → (preorderAll ns).Pairwise Node.Leads
  | [], _, _ => .nil
  | n :: ns, horder, h => by
    rw [preorderAll] at h ⊢
    obtain ⟨hn, hns⟩ := List.forall_mem_append.1 h
    obtain ⟨-, hapart, horder'⟩ := InOrder.cons_iff.1 horder
    refine List.pairwise_append.2 ⟨Node.pairwise_preorder hn, pairwise_preorderAll horder' hns,
      fun l hl m hm => .inr ?_⟩
    obtain ⟨n', hn', hcontains⟩ := exists_contains_of_mem_preorderAll hns m hm
    have hstop : l.span.stop ≤ n.span.stop := (Node.contains_of_mem_preorder hn l hl).2
    exact (hstop.trans (hapart n'.span (List.mem_map_of_mem hn'))).trans hcontains.1

end

lemma mem_or_exists_parent : ∀ {ns : List Node}, m ∈ preorderAll ns →
    m ∈ ns ∨ ∃ p ∈ preorderAll ns, m ∈ p.children := by
  have hone : ∀ n : Node, ∀ m ∈ n.preorder, m = n ∨ ∃ p ∈ n.preorder, m ∈ p.children := by
    intro n m hm
    obtain ⟨s, hs, rfl⟩ : ∃ s ∈ n.sites none [] [], s.node = m := by
      rw [← Node.map_node_sites n none [] []] at hm
      exact List.mem_map.1 hm
    cases hparent : s.parent with
    | none =>
      rw [Site.eq_top hs hparent]
      exact .inl rfl
    | some p =>
      obtain ⟨hp, hchildren⟩ := Site.parent_mem hs hparent
      exact .inr ⟨p, hp, by simp [hchildren]⟩
  intro ns hm
  obtain ⟨n, hn, hm⟩ := mem_preorderAll.1 hm
  obtain rfl | ⟨p, hp, hmem⟩ := hone n m hm
  · exact .inl hn
  · exact .inr ⟨p, mem_preorderAll.2 ⟨n, hn, hp⟩, hmem⟩

end Walk

/-! ## The tree of a source -/

section Source

variable {source : Text} {n m p : Node}

/-- In the tree of a source every node spans its children. -/
theorem spanning_of_mem_preorder (hn : n ∈ (rootOf source).preorder) : n.Spanning := by
  obtain ⟨children, heq, -, hleaves⟩ := parseTerminals_leaves (limited source)
  have horder : LeavesInOrder (leavesOf children) := by
    rw [LeavesInOrder, map_span_leaves hleaves]
    exact inOrder_limitNesting source
  rw [rootOf] at hn
  refine (Phrase.spanning_plant _ 0 0 ?_ fun l _ => Nat.zero_le _).2 n hn
  rw [heq]
  exact horder

lemma contains_below (hn : n ∈ (rootOf source).preorder) (hm : m ∈ n.preorder) :
    n.span.Contains m.span :=
  Node.contains_of_mem_preorder
    (fun _ hl => spanning_of_mem_preorder (mem_preorder_trans hn hl)) m hm

lemma contains_child (hp : p ∈ (rootOf source).preorder) (hn : n ∈ p.children) :
    p.span.Contains n.span :=
  (spanning_of_mem_preorder hp).contains_child hn

/-- Only the root may be without text. -/
lemma start_lt_stop (hp : p ∈ (rootOf source).preorder) (hn : n ∈ p.children) :
    n.span.start < n.span.stop := by
  have hmem : n ∈ (rootOf source).preorder :=
    mem_preorder_trans hp (Node.mem_preorder_of_child hn n.mem_preorder_self)
  obtain hwithin | ⟨-, hchildren⟩ := within_of_mem_preorder hmem
  · exact hwithin.nonempty
  · -- a root that holds nothing is the only node
    rw [(rootOf source).preorder_eq, hchildren] at hp
    rw [List.mem_singleton.1 hp, hchildren] at hn
    cases hn

lemma Node.Leads.start_le (h : n.Leads m) (hn : n ∈ (rootOf source).preorder) :
    n.span.start ≤ m.span.start := by
  obtain hbelow | hbehind := h
  · have hmem : m ∈ n.preorder := by
      rw [n.preorder_eq]
      exact List.mem_cons_of_mem n hbelow
    exact (contains_below hn hmem).1
  · exact (spanning_of_mem_preorder hn).forward.trans hbehind

/-- Of two nodes one comes before the other in the walk. -/
theorem trichotomy (hn : n ∈ (rootOf source).preorder) (hm : m ∈ (rootOf source).preorder) :
    n = m ∨ n.Leads m ∨ m.Leads n := by
  have hwalk := Node.pairwise_preorder fun l (hl : l ∈ (rootOf source).preorder) =>
    spanning_of_mem_preorder hl
  have : Std.Symm fun n m : Node => n = m ∨ n.Leads m ∨ m.Leads n :=
    ⟨fun _ _ h => h.imp Eq.symm Or.symm⟩
  have hpairs : (rootOf source).preorder.Pairwise fun n m => n = m ∨ n.Leads m ∨ m.Leads n :=
    hwalk.imp fun h => .inr (.inl h)
  exact hpairs.forall_of_forall (fun _ _ => .inl rfl) hn hm

/-- The walk over the sites of the tree visits no site twice, and after a site what is below its
node or stands behind it. -/
theorem pairwise_sites (source : Text) : ((rootOf source).sites none [] []).Pairwise
    fun s s' => s ≠ s' ∧ s.node.Leads s'.node := by
  have hnodup : ((rootOf source).preorder).Nodup := .of_map Node.id (nodup_map_id source)
  have hwalk := Node.pairwise_preorder fun l (hl : l ∈ (rootOf source).preorder) =>
    spanning_of_mem_preorder hl
  rw [← Node.map_node_sites _ none [] []] at hnodup hwalk
  exact List.Pairwise.and (List.Nodup.of_map _ hnodup) (List.pairwise_map.1 hwalk)

end Source

end FishScript
