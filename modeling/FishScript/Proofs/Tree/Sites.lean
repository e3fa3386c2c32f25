/-
# Nodes and their surroundings

The sites of a tree are its nodes, in order, each with its surroundings. In the tree of a source
no node occurs twice, because the numbers of the nodes are counted up; so there a node has only
one site, and with it one parent and one list of siblings on each side.
-/
import Mathlib
import FishScript.Proofs.Tree.Planting

namespace FishScript

/-! ## Sites and nodes -/

lemma preorderAll_append (ns ms : List Node) :
    preorderAll (ns ++ ms) = preorderAll ns ++ preorderAll ms := by
  induction ns with
  | nil => rfl
  | cons n ns ih => rw [List.cons_append, preorderAll, preorderAll, ih, List.append_assoc]

lemma Node.preorder_eq (n : Node) : n.preorder = n :: preorderAll n.children := by
  cases n
  rfl

lemma Node.sites_eq (n : Node) (parent : Option Node) (before after : List Node) :
    n.sites parent before after = ⟨n, parent, before, after⟩ :: sitesOf n [] n.children := by
  cases n
  rfl

lemma Node.mem_preorder_self (n : Node) : n ∈ n.preorder := by
  rw [preorder_eq]
  exact List.mem_cons_self

lemma mem_preorderAll {m : Node} {ns : List Node} :
    m ∈ preorderAll ns ↔ ∃ n ∈ ns, m ∈ n.preorder := by
  induction ns with
  | nil => simp [preorderAll]
  | cons n ns ih => rw [preorderAll, List.mem_append, ih, List.exists_mem_cons_iff]

lemma Node.mem_preorder_of_child {m n c : Node} (hc : c ∈ n.children) (hm : m ∈ c.preorder) :
    m ∈ n.preorder := by
  rw [preorder_eq]
  exact List.mem_cons_of_mem n (mem_preorderAll.2 ⟨c, hc, hm⟩)

mutual

/-- The nodes below a node stand together among the nodes below another one that holds it. -/
theorem preorder_sublist : ∀ {n m : Node}, m ∈ n.preorder → m.preorder.Sublist n.preorder
  | ⟨id, kind, field, span, children⟩, m, hm => by
    rcases List.mem_cons.1 hm with rfl | hm
    · exact List.Sublist.refl _
    · exact .cons _ (preorder_sublist_all hm)

theorem preorder_sublist_all : ∀ {ns : List Node} {m : Node}, m ∈ preorderAll ns →
    m.preorder.Sublist (preorderAll ns)
  | n :: ns, m, hm => by
    rcases List.mem_append.1 hm with hm | hm
    · exact (preorder_sublist hm).trans (List.sublist_append_left _ _)
    · exact (preorder_sublist_all hm).trans (List.sublist_append_right _ _)

end

lemma mem_preorder_trans {n m l : Node} (hm : m ∈ n.preorder) (hl : l ∈ m.preorder) :
    l ∈ n.preorder :=
  (preorder_sublist hm).subset hl

lemma sublist_preorderAll (ns : List Node) : ns.Sublist (preorderAll ns) := by
  induction ns with
  | nil => exact .refl _
  | cons n ns ih =>
    rw [preorderAll, n.preorder_eq, List.cons_append]
    exact (ih.trans (List.sublist_append_right _ _)).cons_cons n

mutual

/-- The sites of a node and of the nodes below it are these nodes, in their order. -/
theorem Node.map_node_sites : ∀ (n : Node) (parent : Option Node) (before after : List Node),
    (n.sites parent before after).map Site.node = n.preorder
  | ⟨id, kind, field, span, children⟩, parent, before, after => by
    rw [Node.sites_eq, Node.preorder_eq, List.map_cons, map_node_sitesOf children]

theorem map_node_sitesOf : ∀ (ns : List Node) (parent : Node) (before : List Node),
    (sitesOf parent before ns).map Site.node = preorderAll ns
  | [], parent, before => rfl
  | n :: ns, parent, before => by
    rw [sitesOf, preorderAll, List.map_append, Node.map_node_sites n, map_node_sitesOf ns]

end

lemma mem_childrenFrom {parent n : Node} {between after : List Node} (before : List Node) :
    ⟨n, some parent, between.reverse ++ before, after⟩ ∈
      Site.childrenFrom parent before (between ++ n :: after) := by
  induction between generalizing before with
  | nil => exact List.mem_cons_self
  | cons m between ih =>
    rw [List.reverse_cons, List.append_assoc]
    exact List.mem_cons_of_mem _ (ih (m :: before))

mutual

/-- The sites of a node and of the nodes below it are its own and those of the children of each
of these nodes. -/
theorem Node.sites_perm : ∀ (n : Node) (parent : Option Node) (before after : List Node),
    (n.sites parent before after).Perm
      (⟨n, parent, before, after⟩ :: n.preorder.flatMap Site.children)
  | ⟨id, kind, field, span, children⟩, parent, before, after => by
    rw [Node.sites_eq, Node.preorder_eq, List.flatMap_cons]
    exact (sitesOf_perm children _ []).cons _

theorem sitesOf_perm : ∀ (ns : List Node) (parent : Node) (before : List Node),
    (sitesOf parent before ns).Perm
      (Site.childrenFrom parent before ns ++ (preorderAll ns).flatMap Site.children)
  | [], parent, before => .refl []
  | n :: ns, parent, before => by
    rw [sitesOf, preorderAll, Site.childrenFrom, List.flatMap_append, List.cons_append]
    refine ((Node.sites_perm n (some parent) before ns).append (sitesOf_perm ns parent _)).trans ?_
    rw [List.cons_append]
    refine .cons _ ?_
    -- the sites below the first child move behind those of its siblings
    rw [← List.append_assoc, ← List.append_assoc]
    exact List.perm_append_comm.append_right _

end

lemma Node.site_mem_of_child {root p n : Node} (hp : p ∈ root.preorder) {before after : List Node}
    (hchildren : p.children = before ++ n :: after) :
    ⟨n, some p, before.reverse, after⟩ ∈ root.sites none [] [] := by
  rw [(root.sites_perm none [] []).mem_iff]
  refine List.mem_cons_of_mem _ (List.mem_flatMap.2 ⟨p, hp, ?_⟩)
  have hmem : (⟨n, some p, before.reverse ++ [], after⟩ : Site) ∈
      Site.childrenFrom p [] (before ++ n :: after) := mem_childrenFrom []
  rw [List.append_nil] at hmem
  rw [Site.children, hchildren]
  exact hmem

lemma Site.surroundings_of_mem_childrenFrom {parent : Node} {before ns : List Node} {s : Site}
    (h : s ∈ Site.childrenFrom parent before ns) :
    s.parent = some parent ∧ before.reverse ++ ns = s.before.reverse ++ s.node :: s.after := by
  induction ns generalizing before with
  | nil => cases h
  | cons n ns ih =>
    rcases List.mem_cons.1 h with rfl | h
    · exact ⟨rfl, rfl⟩
    · obtain ⟨hparent, hsplit⟩ := ih h
      refine ⟨hparent, ?_⟩
      rw [← hsplit, List.reverse_cons, List.append_assoc, List.singleton_append]

/-- A site below nodes is one of these nodes or one of their children's. -/
lemma parent_of_mem_sitesOf {parent : Node} {before ns : List Node} {s : Site}
    (h : s ∈ sitesOf parent before ns) :
    s.parent = some parent ∨ ∃ p ∈ preorderAll ns, s.parent = some p := by
  rcases List.mem_append.1 ((sitesOf_perm ns parent before).mem_iff.1 h) with h | h
  · exact .inl (Site.surroundings_of_mem_childrenFrom h).1
  · obtain ⟨p, hp, h⟩ := List.mem_flatMap.1 h
    exact .inr ⟨p, hp, (Site.surroundings_of_mem_childrenFrom h).1⟩

lemma Node.surroundings_of_mem_sites {root : Node} {s : Site} (h : s ∈ root.sites none [] []) :
    s.parent = none ∨ ∃ p ∈ root.preorder, s.parent = some p ∧
      p.children = s.before.reverse ++ s.node :: s.after := by
  rcases List.mem_cons.1 ((root.sites_perm none [] []).mem_iff.1 h) with rfl | h
  · exact .inl rfl
  · obtain ⟨p, hp, h⟩ := List.mem_flatMap.1 h
    exact .inr ⟨p, hp, Site.surroundings_of_mem_childrenFrom h⟩

lemma Site.parent_mem {root p : Node} {s : Site} (h : s ∈ root.sites none [] [])
    (hparent : s.parent = some p) :
    p ∈ root.preorder ∧ p.children = s.before.reverse ++ s.node :: s.after := by
  obtain hnone | ⟨q, hq, hparent', hchildren⟩ := Node.surroundings_of_mem_sites h
  · rw [hparent] at hnone
    cases hnone
  · rw [hparent, Option.some_inj] at hparent'
    rw [hparent']
    exact ⟨hq, hchildren⟩

lemma Site.eq_top {root : Node} {s : Site} (h : s ∈ root.sites none [] [])
    (hparent : s.parent = none) : s = .top root := by
  rcases List.mem_cons.1 ((root.sites_perm none [] []).mem_iff.1 h) with rfl | h
  · rfl
  · obtain ⟨p, -, h⟩ := List.mem_flatMap.1 h
    rw [(Site.surroundings_of_mem_childrenFrom h).1] at hparent
    cases hparent

lemma Site.exists_parent {root n : Node} {s : Site} (h : s ∈ root.sites none [] [])
    (hn : n ∈ s.before ∨ n ∈ s.after) : ∃ p ∈ root.preorder, s.parent = some p ∧
      p.children = s.before.reverse ++ s.node :: s.after := by
  cases hparent : s.parent with
  | none =>
    rw [Site.eq_top h hparent] at hn
    obtain hn | hn := hn <;> cases hn
  | some p =>
    obtain ⟨hp, hchildren⟩ := Site.parent_mem h hparent
    exact ⟨p, hp, rfl, hchildren⟩

lemma Site.node_mem {root : Node} {s : Site} (h : s ∈ root.sites none [] []) :
    s.node ∈ root.preorder := by
  rw [← Node.map_node_sites root none [] []]
  exact List.mem_map_of_mem h

/-! ## Numbers of nodes -/

mutual

/-- The nodes of a planted phrase are counted up from its first number. -/
theorem Phrase.map_id_plant : ∀ (p : Phrase) (id cursor : Nat),
    (p.plant id cursor).preorder.map Node.id = List.range' id p.size
  | .leaf kind field span, id, cursor => rfl
  | .node kind field children, id, cursor => by
    rw [Phrase.plant, Node.preorder, List.map_cons, map_id_plantAll children, Phrase.size,
      List.range'_succ]

theorem map_id_plantAll : ∀ (ps : List Phrase) (id cursor : Nat),
    (preorderAll (plantAll id cursor ps)).map Node.id = List.range' id (sizeOfAll ps)
  | [], id, cursor => rfl
  | p :: ps, id, cursor => by
    rw [plantAll, preorderAll, List.map_append, Phrase.map_id_plant p, map_id_plantAll ps,
      sizeOfAll, List.range'_append_1]

end

lemma nodup_map_id (source : Text) : ((rootOf source).preorder.map Node.id).Nodup := by
  rw [rootOf, Phrase.map_id_plant]
  exact List.nodup_range'

/-- In the tree of a source a node has only one site. -/
theorem site_eq_of_node_eq {source : Text} {s s' : Site}
    (hs : s ∈ (rootOf source).sites none [] []) (hs' : s' ∈ (rootOf source).sites none [] [])
    (h : s.node = s'.node) : s = s' := by
  have hnodup : ((rootOf source).preorder).Nodup := .of_map Node.id (nodup_map_id source)
  rw [← Node.map_node_sites _ none [] []] at hnodup
  exact List.inj_on_of_nodup_map hnodup hs hs' h

lemma Site.parent_of_mem_children {source : Text} {s : Site} {p : Node}
    (hs : s ∈ (rootOf source).sites none [] []) (hp : p ∈ (rootOf source).preorder)
    (hn : s.node ∈ p.children) : s.parent = some p := by
  obtain ⟨before, after, hchildren⟩ := List.append_of_mem hn
  rw [site_eq_of_node_eq hs (Node.site_mem_of_child hp hchildren) rfl]

lemma parent_unique {source : Text} {p q c : Node} (hp : p ∈ (rootOf source).preorder)
    (hq : q ∈ (rootOf source).preorder) (hc : c ∈ p.children) (hc' : c ∈ q.children) : p = q := by
  obtain ⟨before, after, hchildren⟩ := List.append_of_mem hc
  have hsite := Node.site_mem_of_child hp hchildren
  exact Option.some_inj.1 (Site.parent_of_mem_children hsite hq hc')

lemma nodup_children {source : Text} {p : Node} (hp : p ∈ (rootOf source).preorder) :
    p.children.Nodup := by
  have hnodup : ((rootOf source).preorder).Nodup := .of_map Node.id (nodup_map_id source)
  have hbelow : p.preorder.Nodup := (preorder_sublist hp).nodup hnodup
  rw [p.preorder_eq] at hbelow
  exact (sublist_preorderAll p.children).nodup (List.nodup_cons.1 hbelow).2

end FishScript
