/-
# Links

The links of an arena are set in one pass over the records. After the pass has gone through the
numbers below some `m`, the nodes held by one of these have their links and these themselves have
their lists of named children (`Slot.linkedBelow`); at the end every record says what the site of
its node says (`link_unlinked`). What links have to agree on is `Arena.Linked`.

The walk with a stack finds the nodes below those on the stack, in the order of the recursive walk
(`walk_eq`), and so counts the nodes below the root up from 0.
-/
import FishScript.Proofs.Tree.Recording

namespace FishScript

/-! ## Sites of a tree -/

namespace Tree

variable {t : Tree} {s s' : Site} {p : Node}

lemma map_node_allSites (t : Tree) : t.allSites.map Site.node = t.nodes := by
  rw [allSites, nodes]
  induction t.tops with
  | nil => rfl
  | cons n tops ih =>
    rw [List.flatMap_cons, List.map_append, Node.map_node_sites, ih, preorderAll]

lemma node_mem_nodes (hs : s ∈ t.allSites) : s.node ∈ t.nodes := by
  rw [← map_node_allSites]
  exact List.mem_map_of_mem hs

lemma surroundings_of_mem_allSites (h : s ∈ t.allSites) :
    s = .top s.node ∨ ∃ p ∈ t.nodes, s.parent = some p ∧
      p.children = s.before.reverse ++ s.node :: s.after := by
  obtain ⟨root, hroot, h⟩ := List.mem_flatMap.1 h
  rcases Node.surroundings_of_mem_sites h with hnone | ⟨p, hp, hparent, hchildren⟩
  · have htop := Site.eq_top h hnone
    rw [htop]
    exact .inl rfl
  · exact .inr ⟨p, mem_preorderAll.2 ⟨root, hroot, hp⟩, hparent, hchildren⟩

lemma mem_allSites_of_child {n : Node} {before after : List Node} (hp : p ∈ t.nodes)
    (hchildren : p.children = before ++ n :: after) :
    ⟨n, some p, before.reverse, after⟩ ∈ t.allSites := by
  obtain ⟨root, hroot, hp⟩ := mem_preorderAll.1 hp
  exact List.mem_flatMap.2 ⟨root, hroot, Node.site_mem_of_child hp hchildren⟩

lemma map_id_namedChildren {n : Node} {before after : List Node} (hn : n.isNamed)
    (hchildren : p.children = before ++ n :: after) : p.namedChildren.map Node.id =
      (before.filter Node.isNamed).map Node.id ++
        n.id :: (after.filter Node.isNamed).map Node.id := by
  rw [Node.namedChildren, hchildren, List.filter_append, List.filter_cons_of_pos hn,
    List.map_append, List.map_cons]

/-- The nodes of a tree are counted up. -/
def Numbered (t : Tree) : Prop := t.nodes.map Node.id = List.range t.size

namespace Numbered

variable (h : t.Numbered)
include h

lemma getElem?_allSites (hs : s ∈ t.allSites) : t.allSites[s.node.id]? = some s := by
  obtain ⟨j, hj⟩ := List.mem_iff_getElem?.1 hs
  have hid : (List.range t.size)[j]? = some s.node.id := by
    rw [← h, ← map_node_allSites, List.getElem?_map, List.getElem?_map, hj]
    rfl
  obtain ⟨hlt, hid⟩ := List.getElem?_eq_some_iff.1 hid
  rw [List.getElem_range] at hid
  rw [← hid]
  exact hj

lemma node_eq (hp : p ∈ t.nodes) : t.node p.id = .ok p := by
  have hget : (([] : List Node) ++ t.nodes.map fun n => n)[p.id]? = some p :=
    getElem?_of_range ((List.nil_append _).trans h) rfl hp
  rw [List.nil_append, List.map_id'] at hget
  rw [node, hget]

lemma id_eq {i : Nat} (hs : t.allSites[i]? = some s) : s.node.id = i := by
  have hid : (List.range t.size)[i]? = some s.node.id := by
    rw [← h, ← map_node_allSites, List.getElem?_map, List.getElem?_map, hs]
    rfl
  obtain ⟨hlt, hid⟩ := List.getElem?_eq_some_iff.1 hid
  rw [← hid, List.getElem_range]

lemma site_eq (hs : s ∈ t.allSites) (hs' : s' ∈ t.allSites) (hid : s.node.id = s'.node.id) :
    s = s' := by
  have hget := h.getElem?_allSites hs
  rw [hid, h.getElem?_allSites hs', Option.some_inj] at hget
  exact hget.symm

lemma parent_eq (hs : s ∈ t.allSites) (hp : p ∈ t.nodes)
    (hmem : s.node.id ∈ p.children.map Node.id) : s.parent = some p := by
  obtain ⟨c, hc, hid⟩ := List.mem_map.1 hmem
  obtain ⟨before, after, hchildren⟩ := List.append_of_mem hc
  rw [h.site_eq hs (mem_allSites_of_child hp hchildren) hid.symm]

/-- The numbers below a node are greater than its own and rise along the walk. -/
lemma pairwise_preorder (hp : p ∈ t.nodes) : (p.preorder.map Node.id).Pairwise (· < ·) := by
  have hsub := (preorder_sublist_all hp).map Node.id
  rw [← nodes, h] at hsub
  exact List.pairwise_lt_range.sublist hsub

lemma id_lt_of_child {c : Node} (hp : p ∈ t.nodes) (hc : c ∈ p.children) : p.id < c.id := by
  have hpairwise := h.pairwise_preorder hp
  rw [p.preorder_eq, List.map_cons, List.pairwise_cons] at hpairwise
  exact hpairwise.1 _ (List.mem_map_of_mem ((sublist_preorderAll _).subset hc))

lemma nodup_map_id_children (hp : p ∈ t.nodes) : (p.children.map Node.id).Nodup := by
  have hpairwise := h.pairwise_preorder hp
  rw [p.preorder_eq, List.map_cons, List.pairwise_cons] at hpairwise
  exact (hpairwise.2.sublist ((sublist_preorderAll _).map _)).imp Nat.ne_of_lt

lemma id_not_mem_siblings {n : Node} {before after : List Node} (hp : p ∈ t.nodes)
    (hchildren : p.children = before ++ n :: after) :
    n.id ∉ before.map Node.id ∧ n.id ∉ after.map Node.id := by
  have hnodup := h.nodup_map_id_children hp
  rw [hchildren, List.map_append, List.map_cons] at hnodup
  obtain ⟨-, htail, hdisjoint⟩ := List.nodup_append'.1 hnodup
  exact ⟨fun hmem => hdisjoint hmem List.mem_cons_self, (List.nodup_cons.1 htail).1⟩

lemma id_lt_size (hp : p ∈ t.nodes) : p.id < t.size := by
  have hmem := List.mem_map_of_mem (f := Node.id) hp
  rw [h] at hmem
  exact List.mem_range.1 hmem

end Numbered

end Tree

/-! ## One pass -/

namespace Slot

variable {set : Option Nat → Option Nat → Slot → Slot} {previous : Option Nat} {ids : List Nat}
  {slots : List Slot} {i : Nat}

lemma getElem?_chain_of_not_mem (hi : i ∉ ids) :
    (chain set previous ids slots)[i]? = slots[i]? := by
  induction ids generalizing previous slots with
  | nil => rfl
  | cons id ids ih =>
    obtain ⟨hne, hi⟩ := not_or.1 (List.mem_cons.not.1 hi)
    rw [chain, ih hi, List.getElem?_modify_ne _ _ (Ne.symm hne)]

/-- Links among siblings are those to the neighbours. -/
lemma getElem?_chain {before after : List Nat} (hi : i ∉ before) (hi' : i ∉ after) :
    (chain set previous (before ++ i :: after) slots)[i]? =
      slots[i]?.map (set (before.getLast?.or previous) after.head?) := by
  induction before generalizing previous slots with
  | nil => rw [List.nil_append, chain, getElem?_chain_of_not_mem hi', List.getElem?_modify_eq]; rfl
  | cons id before ih =>
    obtain ⟨hne, hi⟩ := not_or.1 (List.mem_cons.not.1 hi)
    rw [List.cons_append, chain, ih hi, List.getElem?_modify_ne _ _ (Ne.symm hne),
      List.getLast?_cons]
    cases before.getLast? <;> rfl

/-- The record of a node when the pass has gone through the numbers below `m`. -/
def linkedBelow (m : Nat) (s : Site) : Slot :=
  { (if s.parent.any (·.id < m) then ofSite s else unlinked s.node) with
    namedChildren := if s.node.id < m then s.node.namedChildren.map Node.id else [] }

lemma children_linkedBelow {m : Nat} {s : Site} :
    (linkedBelow m s).children = s.node.children.map Node.id := by
  unfold linkedBelow
  split <;> rfl

lemma kind_linkedBelow {m : Nat} {s : Site} : (linkedBelow m s).kind = s.node.kind := by
  unfold linkedBelow
  split <;> rfl

lemma linkedBelow_zero {s : Site} : linkedBelow 0 s = unlinked s.node := by
  cases hparent : s.parent <;> simp [linkedBelow, hparent, unlinked, bare]

lemma ofSite_top (n : Node) :
    ofSite (.top n) = { unlinked n with namedChildren := n.namedChildren.map Node.id } := by
  cases hnamed : n.isNamed <;>
    simp [ofSite, Site.top, Site.previousNamed?, Site.nextNamed?, unlinked, bare, hnamed]

end Slot

namespace Tree.Numbered

variable {t : Tree} {m : Nat} {s : Site} {p : Node} (h : t.Numbered)
include h

lemma getElem?_linkedBelow (hs : s ∈ t.allSites) :
    (t.allSites.map (Slot.linkedBelow m))[s.node.id]? = some (.linkedBelow m s) := by
  rw [List.getElem?_map, h.getElem?_allSites hs, Option.map_some]

lemma namedOf_linkedBelow (hs : s ∈ t.allSites) :
    Slot.namedOf (t.allSites.map (Slot.linkedBelow m)) (.linkedBelow m s) =
      s.node.namedChildren.map Node.id := by
  rw [Slot.namedOf, Slot.children_linkedBelow, List.filter_map, Node.namedChildren]
  refine congrArg _ (List.filter_congr fun c hc => ?_)
  obtain ⟨before, after, hchildren⟩ := List.append_of_mem hc
  have hget := h.getElem?_linkedBelow (m := m) (mem_allSites_of_child (node_mem_nodes hs) hchildren)
  simp only [Function.comp_apply] at hget ⊢
  rw [hget, Option.any_some, Slot.kind_linkedBelow]
  rfl

/-- A node held by `p` gets its links when the pass comes to `p`. -/
lemma getElem?_chain_of_parent (hs : s ∈ t.allSites) (hp : p ∈ t.nodes)
    (hparent : s.parent = some p)
    (hchildren : p.children = s.before.reverse ++ s.node :: s.after) :
    (Slot.chain Slot.placedNamed none (p.namedChildren.map Node.id)
      (Slot.chain (Slot.placed p.id) none (p.children.map Node.id)
        (t.allSites.map (Slot.linkedBelow p.id))))[s.node.id]? =
      some { Slot.ofSite s with namedChildren := [] } := by
  have hbase : Slot.linkedBelow p.id s = .unlinked s.node := by
    have hlt : p.id < s.node.id := h.id_lt_of_child hp (by simp [hchildren])
    simp [Slot.linkedBelow, hparent, Nat.lt_asymm hlt, Slot.unlinked, Slot.bare]
  obtain ⟨hbefore, hafter⟩ := h.id_not_mem_siblings hp hchildren
  have hplaced : (Slot.chain (Slot.placed p.id) none (p.children.map Node.id)
      (t.allSites.map (Slot.linkedBelow p.id)))[s.node.id]? = some
        (.placed p.id (s.before.head?.map Node.id) (s.after.head?.map Node.id)
          (.unlinked s.node)) := by
    rw [hchildren, List.map_append, List.map_cons, Slot.getElem?_chain hbefore hafter,
      h.getElem?_linkedBelow hs, hbase, List.getLast?_map, List.getLast?_reverse, List.head?_map,
      Option.or_none, Option.map_some]
  by_cases hnamed : s.node.isNamed
  · rw [map_id_namedChildren hnamed hchildren, Slot.getElem?_chain
      (fun hmem => hbefore ((List.filter_sublist.map _).subset hmem))
      (fun hmem => hafter ((List.filter_sublist.map _).subset hmem)), hplaced]
    simp [Slot.placedNamed, Slot.placed, Slot.ofSite, Slot.unlinked, Slot.bare, hparent, hnamed,
      Site.previousNamed?, Site.nextNamed?, List.filter_reverse]
  · have hanonymous : s.node.id ∉ p.namedChildren.map Node.id := by
      intro hmem
      obtain ⟨c, hc, hid⟩ := List.mem_map.1 hmem
      obtain ⟨hc, hcnamed⟩ := List.mem_filter.1 hc
      rw [List.inj_on_of_nodup_map (h.nodup_map_id_children hp) hc (by simp [hchildren]) hid]
        at hcnamed
      exact hnamed hcnamed
    rw [Slot.getElem?_chain_of_not_mem hanonymous, hplaced]
    simp [Slot.placed, Slot.ofSite, Slot.unlinked, Slot.bare, hparent, hnamed,
      Site.previousNamed?, Site.nextNamed?]

/-- A node that the node of a site does not hold keeps its links when the pass comes there. -/
lemma linked_iff_of_not_held {s' : Site} (hs : s ∈ t.allSites) (hs' : s' ∈ t.allSites)
    (hheld : s'.node.id ∉ s.node.children.map Node.id) :
    s'.parent.any (·.id < s.node.id + 1) = s'.parent.any (·.id < s.node.id) := by
  rcases surroundings_of_mem_allSites hs' with htop | ⟨q, hq, hparent, hchildren⟩
  · rw [htop]
    rfl
  · have hne : q.id ≠ s.node.id := by
      intro hid
      have hnodup : (t.nodes.map Node.id).Nodup := by
        rw [h]
        exact List.nodup_range
      rw [← List.inj_on_of_nodup_map hnodup hq (node_mem_nodes hs) hid] at hheld
      exact hheld (List.mem_map_of_mem (by simp [hchildren]))
    rw [hparent, Option.any_some, Option.any_some, decide_eq_decide]
    omega

lemma linkChildren_linkedBelow (hs : s ∈ t.allSites) :
    Slot.linkChildren (t.allSites.map (Slot.linkedBelow s.node.id)) s.node.id =
      t.allSites.map (Slot.linkedBelow (s.node.id + 1)) := by
  have hp := node_mem_nodes hs
  simp only [Slot.linkChildren, h.getElem?_linkedBelow hs, h.namedOf_linkedBelow hs,
    Slot.children_linkedBelow]
  refine List.ext_getElem? fun i => ?_
  rw [List.getElem?_modify]
  by_cases hheld : i ∈ s.node.children.map Node.id
  · -- a child: it gets its links now, and its own children come later
    obtain ⟨c, hc, rfl⟩ := List.mem_map.1 hheld
    obtain ⟨before, after, hchildren⟩ := List.append_of_mem hc
    have hs' := mem_allSites_of_child hp hchildren
    have hlt := h.id_lt_of_child hp hc
    have hchain := h.getElem?_chain_of_parent hs' hp rfl (by simpa using hchildren)
    have hget := h.getElem?_linkedBelow (m := s.node.id + 1) hs'
    simp only at hchain hget
    rw [hchain, hget, Option.map_eq_map, Option.map_some, if_neg (Nat.ne_of_lt hlt)]
    simp [Slot.linkedBelow, Nat.not_le.2 hlt]
  · have hunnamed : i ∉ s.node.namedChildren.map Node.id := fun hmem =>
      hheld ((List.filter_sublist.map _).subset hmem)
    rw [Slot.getElem?_chain_of_not_mem hunnamed, Slot.getElem?_chain_of_not_mem hheld,
      List.getElem?_map, List.getElem?_map]
    cases hi : t.allSites[i]? with
    | none => rfl
    | some s' =>
      obtain rfl := h.id_eq hi
      have hlinked := h.linked_iff_of_not_held hs (List.mem_of_getElem? hi) hheld
      rw [Option.map_eq_map, Option.map_some, Option.map_some, Option.map_some]
      by_cases hid : s.node.id = s'.node.id
      · -- the node itself: it lists its named children now
        obtain rfl := h.site_eq hs (List.mem_of_getElem? hi) hid
        simp only [if_true, Slot.linkedBelow, hlinked, Nat.lt_succ_self]
      · have hlt : s'.node.id < s.node.id + 1 ↔ s'.node.id < s.node.id := by omega
        simp only [if_neg hid, Slot.linkedBelow, hlinked, hlt]

lemma linkedBelow_size (hs : s ∈ t.allSites) : Slot.linkedBelow t.size s = .ofSite s := by
  have hlt := h.id_lt_size (node_mem_nodes hs)
  rcases surroundings_of_mem_allSites hs with htop | ⟨p, hp, hparent, -⟩
  · rw [htop] at hlt ⊢
    have hlt' : s.node.id < t.size := hlt
    rw [Slot.linkedBelow, Slot.ofSite_top]
    simp [Site.top, hlt']
  · simp [Slot.linkedBelow, hparent, h.id_lt_size hp, hlt, Slot.ofSite]

lemma map_linkedBelow_size :
    t.allSites.map (Slot.linkedBelow t.size) = t.allSites.map .ofSite :=
  List.map_congr_left fun _ hs => h.linkedBelow_size hs

/-- Once the pass is over, the record of a node says what its site says. -/
theorem link_unlinked : Slot.link (t.nodes.map .unlinked) = t.allSites.map .ofSite := by
  have hbelow (m : Nat) (hm : m ≤ t.size) :
      (List.range m).foldl Slot.linkChildren (t.nodes.map .unlinked) =
        t.allSites.map (Slot.linkedBelow m) := by
    induction m with
    | zero =>
      rw [← map_node_allSites, List.map_map]
      exact List.map_congr_left fun s _ => Slot.linkedBelow_zero.symm
    | succ m ih =>
      have hlength : m < t.allSites.length := by
        rw [← List.length_map Site.node, map_node_allSites]
        exact hm
      obtain ⟨s, hs⟩ : ∃ s, t.allSites[m]? = some s := ⟨_, List.getElem?_eq_getElem hlength⟩
      obtain rfl := h.id_eq hs
      rw [List.range_succ, List.foldl_concat, ih (Nat.le_of_succ_le hm)]
      exact h.linkChildren_linkedBelow (List.mem_of_getElem? hs)
  rw [Slot.link, List.length_map, ← size, hbelow _ (Nat.le_refl _), h.map_linkedBelow_size]

end Tree.Numbered

/-! ## What links agree on -/

/-- In a list of siblings a node occurs once, and these are its neighbours. -/
def StandsBetween (siblings : List Nat) (id : Nat) (previous next : Option Nat) : Prop :=
  ∃ before after, siblings = before ++ id :: after ∧ id ∉ before ∧ id ∉ after ∧
    previous = before.getLast? ∧ next = after.head?

/-- A record without links to other nodes than children. -/
structure Slot.Detached (s : Slot) : Prop where
  parent : s.parent = none
  previous : s.previous = none
  next : s.next = none
  previousNamed : s.previousNamed = none
  nextNamed : s.nextNamed = none

/-- The node `parent` with the record `p` holds the node `id` with the record `s`, and the links of
the latter say where. -/
structure Slot.Holds (parent : Nat) (p : Slot) (id : Nat) (s : Slot) : Prop where
  link : s.parent = some parent
  lt : parent < id
  siblings : StandsBetween p.children id s.previous s.next
  named : s.kind.isNamed → StandsBetween p.namedChildren id s.previousNamed s.nextNamed
  anonymous : s.kind.isNamed = false → s.previousNamed = none ∧ s.nextNamed = none

/-- The links of an arena agree: a node stands at the top, or exactly one node holds it. -/
structure Arena.Linked (a : Arena) : Prop where
  places : ∀ (id : Nat) (s : Slot), a.slots[id]? = some s →
    (s.Detached ∧ ∀ p ∈ a.slots, id ∉ p.children) ∨
      ∃ (parent : Nat) (p : Slot), a.slots[parent]? = some p ∧ Slot.Holds parent p id s ∧
        ∀ (other : Nat) (q : Slot), a.slots[other]? = some q → id ∈ q.children → other = parent
  children : ∀ p ∈ a.slots, ∀ id ∈ p.children, id < a.slots.length
  named : ∀ p ∈ a.slots, p.namedChildren = Slot.namedOf a.slots p

namespace Tree.Numbered

variable {t : Tree} {s : Site} (h : t.Numbered)
include h

/-- The record of a node below the top says where it stands. -/
lemma holds {sp : Site} (hsp : sp ∈ t.allSites) (hparent : s.parent = some sp.node)
    (hchildren : sp.node.children = s.before.reverse ++ s.node :: s.after) :
    Slot.Holds sp.node.id (.ofSite sp) s.node.id (.ofSite s) := by
  have hp := node_mem_nodes hsp
  obtain ⟨hbefore, hafter⟩ := h.id_not_mem_siblings hp hchildren
  refine ⟨?_, h.id_lt_of_child hp (by simp [hchildren]), ⟨_, _, ?_, hbefore, hafter, ?_, ?_⟩,
    fun hnamed => ⟨_, _, map_id_namedChildren hnamed hchildren,
      fun hmem => hbefore ((List.filter_sublist.map _).subset hmem),
      fun hmem => hafter ((List.filter_sublist.map _).subset hmem), ?_, ?_⟩, fun hanonymous => ?_⟩
  · simp [Slot.ofSite, hparent]
  · simp [Slot.ofSite, hchildren]
  · simp [Slot.ofSite]
  · simp [Slot.ofSite]
  · have hn : s.node.isNamed := hnamed
    simp [Slot.ofSite, Site.previousNamed?, hn, List.filter_reverse]
  · have hn : s.node.isNamed := hnamed
    simp [Slot.ofSite, Site.nextNamed?, hn]
  · have hn : s.node.isNamed = false := hanonymous
    simp [Slot.ofSite, Site.previousNamed?, Site.nextNamed?, hn]

lemma getElem?_arena (hs : s ∈ t.allSites) : t.arena.slots[s.node.id]? = some (.ofSite s) := by
  rw [arena, List.getElem?_map, h.getElem?_allSites hs, Option.map_some]

theorem linked_arena : t.arena.Linked := by
  refine ⟨fun id s' hs' => ?_, fun p hp id hid => ?_, fun p hp => ?_⟩
  · rw [arena, List.getElem?_map] at hs'
    obtain ⟨s, hs, rfl⟩ := Option.map_eq_some_iff.1 hs'
    obtain rfl := h.id_eq hs
    have hmem := List.mem_of_getElem? hs
    -- what lists the node among its children is its parent
    have hholder {sq : Site} (hsq : sq ∈ t.allSites)
        (hlisted : s.node.id ∈ (Slot.ofSite sq).children) : s.parent = some sq.node :=
      h.parent_eq hmem (node_mem_nodes hsq) hlisted
    rcases surroundings_of_mem_allSites hmem with htop | ⟨p, hp, hparent, hchildren⟩
    · left
      constructor
      · rw [htop, Slot.ofSite_top]
        exact ⟨rfl, rfl, rfl, rfl, rfl⟩
      · intro q hq hlisted
        obtain ⟨sq, hsq, rfl⟩ := List.mem_map.1 hq
        have hparent := hholder hsq hlisted
        rw [htop] at hparent
        cases hparent
    · right
      rw [← map_node_allSites] at hp
      obtain ⟨sp, hsp, rfl⟩ := List.mem_map.1 hp
      refine ⟨sp.node.id, .ofSite sp, h.getElem?_arena hsp, h.holds hsp hparent hchildren, ?_⟩
      intro other q hq hlisted
      rw [arena, List.getElem?_map] at hq
      obtain ⟨sq, hsq, rfl⟩ := Option.map_eq_some_iff.1 hq
      have hparent' := hholder (List.mem_of_getElem? hsq) hlisted
      rw [hparent, Option.some_inj] at hparent'
      rw [hparent', h.id_eq hsq]
  · obtain ⟨sp, hsp, rfl⟩ := List.mem_map.1 hp
    obtain ⟨c, hc, rfl⟩ := List.mem_map.1 hid
    obtain ⟨before, after, hchildren⟩ := List.append_of_mem hc
    exact (List.getElem?_eq_some_iff.1
      (h.getElem?_arena (mem_allSites_of_child (node_mem_nodes hsp) hchildren))).1
  · obtain ⟨sp, hsp, rfl⟩ := List.mem_map.1 hp
    have hnamed := h.namedOf_linkedBelow (m := t.size) hsp
    rw [h.map_linkedBelow_size, h.linkedBelow_size hsp] at hnamed
    exact hnamed.symm

/-- A walk finds the nodes on its stack and those below them. -/
theorem walk_eq (steps : Nat) (ns : List Node) (hns : ∀ m ∈ ns, m ∈ t.nodes) :
    t.arena.walk steps (ns.map Node.id) = ((preorderAll ns).map Node.id).take steps := by
  induction steps generalizing ns with
  | zero => rfl
  | succ steps ih =>
    cases ns with
    | nil => rfl
    | cons n ns =>
      have hn : n ∈ t.nodes := hns n List.mem_cons_self
      have hslot : t.arena.slots[n.id]?.elim [] Slot.children = n.children.map Node.id := by
        rw [← map_node_allSites] at hn
        obtain ⟨s, hs, rfl⟩ := List.mem_map.1 hn
        rw [h.getElem?_arena hs]
        rfl
      have hbelow : ∀ m ∈ n.children ++ ns, m ∈ t.nodes := by
        intro m hm
        rcases List.mem_append.1 hm with hm | hm
        · exact (preorder_sublist_all hn).subset
            (Node.mem_preorder_of_child hm m.mem_preorder_self)
        · exact hns m (List.mem_cons_of_mem n hm)
      rw [List.map_cons, Arena.walk, Arena.visit]
      simp only [hslot]
      rw [← List.map_append, ih _ hbelow, preorderAll_append, preorderAll, n.preorder_eq,
        List.cons_append, List.map_cons, List.take_succ_cons]

theorem map_id_preorder_root {r : Node} (hr : t.root? = some r) :
    r.preorder.map Node.id = List.range r.preorder.length := by
  obtain ⟨rest, htops⟩ := List.head?_eq_some_iff.1 hr
  have hfront := congrArg (List.take r.preorder.length) h
  rwa [nodes, htops, preorderAll, List.map_append, List.take_left' (List.length_map _),
    List.take_range, size, nodes, htops, preorderAll, List.length_append,
    Nat.min_eq_left (Nat.le_add_right _ _)] at hfront

end Tree.Numbered

/-! ## What calls build -/

/-- The arena that calls build is that of the tree they build. -/
theorem arena_build (source : Text) (calls : List BuildCall) :
    Arena.build source calls = (Tree.build source calls).map Tree.arena := by
  rw [Arena.build_eq]
  cases hbuild : Tree.build source calls with
  | error refusal => rfl
  | ok t =>
    have hsource : t.source = source := by
      rw [(build_eq_ok_iff.1 hbuild).2.2]
    have hnumbered : t.Numbered := map_id_nodes hbuild
    simp only [Except.map, hnumbered.link_unlinked, ← hsource]
    rfl

/-- Calls fail to build exactly when they are not balanced; otherwise the links agree, and the walk
from the root visits the nodes below it in the order of their numbers. -/
theorem arena_build_outcome (source : Text) (calls : List BuildCall) :
    Arena.build source calls = (Tree.build source calls).map Tree.arena ∧
    (Arena.build source calls = .error .noOpenNode ↔ Overdrawn calls) ∧
    (∀ n, Arena.build source calls = .error (.unclosedNodes n) ↔
      ¬ Overdrawn calls ∧ 0 < n ∧ openCount calls = closeCount calls + n) ∧
    ((∃ a, Arena.build source calls = .ok a) ↔
      ¬ Overdrawn calls ∧ openCount calls = closeCount calls) ∧
    ∀ t, Tree.build source calls = .ok t → t.arena.Linked ∧
      ∀ r, t.root? = some r → t.arena.root = some r.id ∧
        r.preorder.map Node.id = List.range r.preorder.length ∧
        ∀ steps, t.arena.walk steps [r.id] = (List.range r.preorder.length).take steps := by
  have hmap {refusal : Refusal} : Arena.build source calls = .error refusal ↔
      Tree.build source calls = .error refusal := by
    rw [arena_build]
    cases Tree.build source calls <;> simp [Except.map]
  refine ⟨arena_build source calls, ?_, fun n => ?_, ?_, fun t ht => ?_⟩
  · rw [hmap, build_eq_noOpenNode_iff]
  · rw [hmap, build_eq_unclosedNodes_iff]
  · rw [← @build_ok_iff _ source, arena_build]
    cases Tree.build source calls <;> simp [Except.map]
  · have hnumbered : t.Numbered := map_id_nodes ht
    refine ⟨hnumbered.linked_arena, fun r hr => ⟨?_, hnumbered.map_id_preorder_root hr, ?_⟩⟩
    · rw [Tree.arena, hr]
      rfl
    · intro steps
      have hwalk := hnumbered.walk_eq steps [r] ?_
      · rwa [List.map_singleton, preorderAll, preorderAll, List.append_nil,
          hnumbered.map_id_preorder_root hr] at hwalk
      · rintro m hm
        rw [List.mem_singleton.1 hm]
        exact (sublist_preorderAll t.tops).subset (List.mem_of_mem_head? hr)

/-- A program with a word and, behind it, a leaf that stands at the top. -/
theorem arena_build_outcome_two_tops :
    let calls : List BuildCall :=
      [.start .program none, .token .word none ⟨0, 1⟩, .finish, .token .terminator none ⟨1, 2⟩]
    ∃ t, Tree.build "a\n".toList calls = .ok t ∧ t.arena.slots.length = 3 ∧ t.arena.Linked ∧
      t.arena.root = some 0 ∧ ∀ steps, t.arena.walk steps [0] = [0, 1].take steps := by
  intro calls
  obtain ⟨-, -, -, -, hok⟩ := arena_build_outcome "a\n".toList calls
  obtain ⟨hlinked, hroot⟩ := hok _ rfl
  obtain ⟨hroot, -, hwalk⟩ := hroot _ rfl
  exact ⟨_, rfl, rfl, hlinked, hroot, hwalk⟩

end FishScript
