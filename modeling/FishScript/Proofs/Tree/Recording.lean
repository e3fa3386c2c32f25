/-
# Records of a builder

The calls that build a tree and those that build an arena are the same, and between any two of them
the states say the same: the records are those of the nodes in the order of the walk, with the
children that they have so far. Of an open node the record lists also the node that is open inside
it, and its span means nothing yet. In the end this gives the records of the nodes of the tree, with
no links set (`Arena.build_eq`).
-/
import Mathlib
import FishScript.Tree.Arena
import FishScript.Proofs.Tree.Numbering

namespace FishScript

namespace Slot

/-- The record of a closed node before links are set. -/
def unlinked (n : Node) : Slot :=
  { bare n.kind n.field n.span with children := n.children.map Node.id }

/-- The record of an open node in which the nodes `inner` are open. -/
def unclosed (o : OpenNode) (span : Span) (inner : List Nat) : Slot :=
  { bare o.kind o.field span with children := o.children.reverse.map Node.id ++ inner }

end Slot

lemma modify_append_cons {α : Type} (xs ys : List α) (x : α) (f : α → α) :
    (xs ++ x :: ys).modify xs.length f = xs ++ f x :: ys := by
  induction xs with
  | nil => rfl
  | cons y xs ih => rw [List.cons_append, List.length_cons, List.modify_succ_cons, ih,
      List.cons_append]

/-- Where nodes are counted up behind other numbers, each finds at its number what is listed for
it. -/
lemma getElem?_of_range {α : Type} {f : Node → α} {front : List α} {xs : List Nat}
    {ns : List Node} {count : Nat} {n : Node} (h : xs ++ ns.map Node.id = List.range count)
    (hfront : front.length = xs.length) (hn : n ∈ ns) :
    (front ++ ns.map f)[n.id]? = some (f n) := by
  obtain ⟨j, hj⟩ := List.mem_iff_getElem?.1 hn
  have hid : (List.range count)[xs.length + j]? = some n.id := by
    rw [← h, List.getElem?_append_right (Nat.le_add_right _ _), Nat.add_sub_cancel_left,
      List.getElem?_map, hj, Option.map_some]
  obtain ⟨hlt, hid⟩ := List.getElem?_eq_some_iff.1 hid
  rw [List.getElem_range] at hid
  rw [← hid, ← hfront, List.getElem?_append_right (Nat.le_add_right _ _), Nat.add_sub_cancel_left,
    List.getElem?_map, hj, Option.map_some]

/-- Records and numbers at the top, when `tops` are closed there and `opened` are open, and in the
innermost of these the nodes `inner`, which have no records yet. -/
inductive Records (tops : List Node) :
    List Nat → List OpenNode → List Slot → List Nat → Prop
  | top (inner : List Nat) :
      Records tops inner [] ((preorderAll tops.reverse).map .unlinked)
        (tops.reverse.map Node.id ++ inner)
  | inside (inner : List Nat) (span : Span) {o : OpenNode} {rest : List OpenNode}
      {slots : List Slot} {ids : List Nat} (outer : Records tops [o.id] rest slots ids) :
      Records tops inner (o :: rest)
        (slots ++ .unclosed o span inner :: (preorderAll o.children.reverse).map .unlinked) ids

namespace Records

variable {tops : List Node} {inner ids : List Nat} {opened : List OpenNode} {slots : List Slot}

lemma length_slots (h : Records tops inner opened slots ids) :
    slots.length = ((preorderAll tops.reverse).map Node.id ++ Builder.openIds opened).length := by
  induction h with
  | top inner => simp [Builder.openIds]
  | inside inner span outer ih => simp [Builder.openIds, ih, Nat.add_assoc]

/-- A closed node that is attached brings the records of what is below it. -/
lemma attach {b : Builder} {n : Node} (h : Records b.tops [n.id] b.opened slots ids) :
    Records (b.attach n).tops [] (b.attach n).opened (slots ++ n.preorder.map .unlinked) ids := by
  unfold Builder.attach
  generalize b.opened = opened at h
  cases h with
  | top =>
    have htop := @Records.top (n :: b.tops) []
    rwa [List.reverse_cons, preorderAll_append, List.map_append, preorderAll, preorderAll,
      List.append_nil, List.map_append, List.append_nil] at htop
  | @inside _ span o rest slots _ outer =>
    have hinside := Records.inside [] span (o := { o with children := n :: o.children }) outer
    simpa [Slot.unclosed, preorderAll_append, preorderAll] using hinside

end Records

/-- The two builders are in the same state. -/
structure Mirrors (b : Builder) (a : ArenaBuilder) : Prop where
  records : Records b.tops [] b.opened a.slots a.tops
  opened : a.opened = b.opened.map OpenNode.id
  cursor : a.cursor = b.cursor
  fault : a.fault = if b.underflow then some .noOpenNode else none
  ids : b.ids = List.range b.count

@[simp] lemma Builder.map_id_opened_attach (b : Builder) (n : Node) :
    (b.attach n).opened.map OpenNode.id = b.opened.map OpenNode.id := by
  unfold attach
  split
  · rfl
  · rename_i heq
    rw [heq]
    rfl

namespace ArenaBuilder

variable (a : ArenaBuilder) (s : Slot)

@[simp] lemma opened_allocate : (a.allocate s).opened = a.opened := by
  unfold allocate
  split <;> rfl

@[simp] lemma cursor_allocate : (a.allocate s).cursor = a.cursor := by
  unfold allocate
  split <;> rfl

@[simp] lemma fault_allocate : (a.allocate s).fault = a.fault := by
  unfold allocate
  split <;> rfl

end ArenaBuilder

namespace Mirrors

variable {b : Builder} {a : ArenaBuilder} (h : Mirrors b a)
include h

lemma length_slots : a.slots.length = b.count := by
  rw [h.records.length_slots, ← Builder.ids, h.ids, List.length_range]

/-- Where a node is open, its record is at its number, behind those of the nodes around it, and
those of its children at theirs. -/
lemma inside {o : OpenNode} {rest : List OpenNode} (hopened : b.opened = o :: rest) :
    ∃ front span, Records b.tops [o.id] rest front a.tops ∧ front.length = o.id ∧
      a.slots =
        front ++ .unclosed o span [] :: (preorderAll o.children.reverse).map .unlinked ∧
      ∀ n ∈ o.children, a.slots[n.id]? = some (.unlinked n) := by
  have hids := h.ids
  have hrecords := h.records
  rw [Builder.ids, hopened, Builder.openIds, ← List.append_assoc] at hids
  rw [hopened] at hrecords
  generalize a.slots = slots at hrecords
  generalize a.tops = tops at hrecords
  cases hrecords with
  | @inside _ span _ _ front _ outer =>
    have hlength := outer.length_slots
    refine ⟨front, span, outer, ?_, rfl, fun n hn => ?_⟩
    · have hid := congrArg (·[front.length]?) hids
      simp only [hlength, List.getElem?_append_right (Nat.le_refl _), Nat.sub_self,
        List.getElem?_cons_zero] at hid
      obtain ⟨hlt, hid⟩ := List.getElem?_eq_some_iff.1 hid.symm
      rw [← hid, List.getElem_range, hlength]
    · rw [List.append_cons] at hids ⊢
      refine getElem?_of_range hids ?_
        ((sublist_preorderAll o.children.reverse).subset (List.mem_reverse.2 hn))
      rw [List.length_append, List.length_append, hlength]
      rfl

/-- A new record stands behind the others, and its number among the children of the innermost open
node. -/
lemma allocate (s : Slot) : ∃ front, (a.allocate s).slots = front ++ [s] ∧
    Records b.tops [b.count] b.opened front (a.allocate s).tops := by
  unfold ArenaBuilder.allocate
  rw [h.opened, h.length_slots]
  cases hopened : b.opened with
  | nil =>
    have hrecords := h.records
    rw [hopened] at hrecords
    generalize a.slots = slots at hrecords
    generalize a.tops = tops at hrecords
    cases hrecords with
    | top =>
      refine ⟨_, rfl, ?_⟩
      rw [List.append_nil]
      exact .top _
  | cons o rest =>
    obtain ⟨front, span, outer, hplace, hslots, -⟩ := h.inside hopened
    refine ⟨_, ?_, .inside [b.count] span outer⟩
    show (a.slots ++ [s]).modify o.id (.push b.count) = _
    rw [hslots, ← hplace, List.append_assoc, List.cons_append, modify_append_cons,
      List.append_assoc]
    simp [Slot.push, Slot.unclosed]

/-- The span of a node that is closed is read off the records of its first and last child. -/
lemma spanOf_children {o : OpenNode} {rest : List OpenNode} (hopened : b.opened = o :: rest) :
    ArenaBuilder.spanOf a.slots a.cursor (o.children.reverse.map Node.id) =
      OpenNode.spanOf b.cursor o.children := by
  obtain ⟨-, -, -, -, -, hchildren⟩ := h.inside hopened
  rw [ArenaBuilder.spanOf, OpenNode.spanOf, List.head?_map, List.getLast?_map, h.cursor,
    List.head?_reverse, List.getLast?_reverse]
  cases hfirst : o.children.getLast? with
  | none =>
    rw [List.getLast?_eq_none_iff.1 hfirst]
    rfl
  | some first =>
    cases hlast : o.children.head? with
    | none =>
      rw [List.head?_eq_none_iff.1 hlast] at hfirst
      cases hfirst
    | some last =>
      simp only [Option.map_some, Option.bind_some, hchildren _ (List.mem_of_mem_getLast? hfirst),
        hchildren _ (List.mem_of_mem_head? hlast)]
      rfl

/-- A call keeps the two states the same. -/
theorem step (call : BuildCall) : Mirrors (b.step call) (a.step call) := by
  have hids := Builder.ids_step h.ids call
  cases call with
  | start kind field =>
    obtain ⟨front, hslots, hrecords⟩ := h.allocate (.bare kind field (.empty a.cursor))
    refine ⟨?_, ?_, (a.cursor_allocate _).trans h.cursor, (a.fault_allocate _).trans h.fault, hids⟩
    · show Records _ _ _ (a.allocate _).slots _
      rw [hslots]
      exact .inside [] (.empty a.cursor) hrecords
    · simp [ArenaBuilder.step, Builder.step, h.opened, h.length_slots]
  | token kind field span =>
    obtain ⟨front, hslots, hrecords⟩ := h.allocate (.bare kind field span)
    -- the new record is that of a node without children, which is attached at once
    refine ⟨?_, ?_, ?_, ?_, hids⟩
    · show Records _ _ _ (a.allocate _).slots _
      rw [hslots]
      exact hrecords.attach (n := ⟨b.count, kind, field, span, []⟩)
    · simp [ArenaBuilder.step, Builder.step, h.opened]
    · simp [ArenaBuilder.step, Builder.step, h.cursor]
    · simpa [ArenaBuilder.step, Builder.step] using h.fault
  | finish =>
    cases hopened : b.opened with
    | nil =>
      have haopened : a.opened = [] := by rw [h.opened, hopened, List.map_nil]
      have hb : b.step .finish = { b with underflow := true } := by simp [Builder.step, hopened]
      have ha : a.step .finish = { a with fault := some .noOpenNode } := by
        cases hflow : b.underflow <;> simp [ArenaBuilder.step, haopened, h.fault, hflow]
      rw [hb] at hids ⊢
      rw [ha]
      exact ⟨h.records, h.opened, h.cursor, rfl, hids⟩
    | cons o rest =>
      obtain ⟨front, span, outer, hplace, hslots, -⟩ := h.inside hopened
      have haopened : a.opened = o.id :: rest.map OpenNode.id := by
        rw [h.opened, hopened, List.map_cons]
      have hb : b.step .finish = Builder.attach { b with opened := rest } (o.close b.cursor) := by
        simp [Builder.step, hopened]
      -- the record of the node that is closed gets its span and stays where it is
      have ha : a.step .finish = { a with
          opened := rest.map OpenNode.id
          slots := front ++ (o.close b.cursor).preorder.map .unlinked } := by
        have hmodify (g : Slot → Slot) : a.slots.modify o.id g = front ++
            g (.unclosed o span []) :: (preorderAll o.children.reverse).map .unlinked := by
          rw [hslots, ← hplace, modify_append_cons]
        have hspan := h.spanOf_children hopened
        rw [Node.preorder_eq, List.map_cons]
        simp only [ArenaBuilder.step, haopened, hmodify, Slot.unclosed, List.append_nil, hspan]
        rfl
      rw [hb] at hids ⊢
      rw [ha]
      refine ⟨?_, ?_, ?_, ?_, hids⟩
      · exact Records.attach (b := { b with opened := rest }) outer
      · simp
      · simpa using h.cursor
      · simpa using h.fault

end Mirrors

theorem mirrors_run (calls : List BuildCall) :
    Mirrors (Builder.empty.run calls) (ArenaBuilder.empty.run calls) := by
  induction calls using List.reverseRecOn with
  | nil => exact ⟨.top [], rfl, rfl, rfl, rfl⟩
  | append_singleton calls call ih =>
    rw [Builder.run_concat, ArenaBuilder.run, List.foldl_concat]
    exact ih.step call

/-- An arena is built exactly when a tree is, from the records of the nodes of the tree. -/
theorem Arena.build_eq (source : Text) (calls : List BuildCall) :
    Arena.build source calls = (Tree.build source calls).map fun t =>
      ⟨source, Slot.link (t.nodes.map .unlinked), t.root?.map Node.id⟩ := by
  have h := mirrors_run calls
  rw [Arena.build, Tree.build, ArenaBuilder.finish, Builder.finish, h.fault, h.opened]
  have hrecords := h.records
  cases (Builder.empty.run calls).underflow with
  | true => rfl
  | false =>
    cases hopened : (Builder.empty.run calls).opened with
    | cons o rest => simp [Except.map]
    | nil =>
      rw [hopened] at hrecords
      generalize (ArenaBuilder.empty.run calls).slots = slots at hrecords
      generalize (ArenaBuilder.empty.run calls).tops = tops at hrecords
      cases hrecords with
      | top => simp [Except.map, Tree.nodes, Tree.root?]

end FishScript
