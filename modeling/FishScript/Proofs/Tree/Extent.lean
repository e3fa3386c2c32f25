/-
# Where nodes stand

The builder gives a node the span from the start of its first child to the end of its last. When
the leaves of a phrase stand in order, this is the span from the start of its first leaf to the
end of its last, however deep these are.
-/
import Mathlib
import FishScript.Proofs.Grammar.Lossless
import FishScript.Proofs.Token.Order

namespace FishScript

lemma map_span_leaves {ls : List Leaf} {ts : List Terminal} (h : List.Forall₂ Leaf.Of ls ts) :
    ls.map Leaf.span = ts.map Terminal.span := by
  induction h with
  | nil => rfl
  | cons hl _ ih => rw [List.map_cons, List.map_cons, hl.1, ih]

/-- The span from the start of the first of some leaves to the end of the last. -/
def extent (ls : List Leaf) : Span :=
  ⟨(ls.head?.map (·.span.start)).getD 0, (ls.getLast?.map (·.span.stop)).getD 0⟩

/-- The leaves stand in order. -/
def LeavesInOrder (ls : List Leaf) : Prop := InOrder (ls.map Leaf.span)

namespace LeavesInOrder

variable {ls ls' : List Leaf}

lemma append_iff : LeavesInOrder (ls ++ ls') ↔
    LeavesInOrder ls ∧ LeavesInOrder ls' ∧ ∀ l ∈ ls, ∀ l' ∈ ls', l.span.stop ≤ l'.span.start := by
  simp only [LeavesInOrder, List.map_append, InOrder.append_iff, List.forall_mem_map]

lemma start_le (h : LeavesInOrder ls) : ∀ l ∈ ls, (extent ls).start ≤ l.span.start := by
  cases ls with
  | nil => exact fun l hl => by cases hl
  | cons first ls =>
    obtain ⟨hforward, hlater, -⟩ := InOrder.cons_iff.1 h
    refine List.forall_mem_cons.2 ⟨Nat.le_refl _, fun l hl => ?_⟩
    exact hforward.trans (hlater l.span (List.mem_map_of_mem hl))

lemma le_stop (h : LeavesInOrder ls) : ∀ l ∈ ls, l.span.stop ≤ (extent ls).stop := by
  rcases List.eq_nil_or_concat ls with rfl | ⟨init, last, rfl⟩
  · exact fun l hl => by cases hl
  · rw [List.concat_eq_append] at h ⊢
    obtain ⟨-, hlast, hbetween⟩ := append_iff.1 h
    have hforward : last.span.start ≤ last.span.stop := hlast.forward _ (by simp)
    have hstop : (extent (init ++ [last])).stop = last.span.stop := by simp [extent]
    rw [hstop]
    refine List.forall_mem_append.2 ⟨fun l hl => ?_, List.forall_mem_singleton.2 (Nat.le_refl _)⟩
    exact (hbetween l hl last (by simp)).trans hforward

end LeavesInOrder

section Extents

variable {ls ls' : List Leaf}

lemma extent_start_append (h : ls ≠ []) (ls' : List Leaf) :
    (extent (ls ++ ls')).start = (extent ls).start := by
  obtain ⟨l, ls, rfl⟩ := List.exists_cons_of_ne_nil h
  rfl

lemma extent_stop_append (h : ls' ≠ []) (ls : List Leaf) :
    (extent (ls ++ ls')).stop = (extent ls').stop := by
  simp [extent, List.getLast?_append_of_ne_nil _ h]

lemma map_stop_getLast? (h : ls ≠ []) :
    ls.getLast?.map (·.span.stop) = some (extent ls).stop := by
  obtain ⟨init, last, rfl⟩ := (List.eq_nil_or_concat' ls).resolve_left h
  simp [extent]

lemma extent_start_le (horder : LeavesInOrder (ls ++ ls')) (h : ls' ≠ []) :
    (extent (ls ++ ls')).start ≤ (extent ls').start := by
  obtain ⟨l, rest, rfl⟩ := List.exists_cons_of_ne_nil h
  exact horder.start_le l (List.mem_append_right _ List.mem_cons_self)

/-- Leaves reach from the start of any first part of them to the end of any last part. -/
lemma extent_eq_cover {us vs : List Leaf} (horder : LeavesInOrder ls) (hpre : us <+: ls)
    (hsuf : vs <:+ ls) (hus : us ≠ []) (hvs : vs ≠ []) :
    (extent us).cover (extent vs) = extent ls := by
  obtain ⟨rest, hls⟩ := hpre
  obtain ⟨front, hls'⟩ := hsuf
  have hstart : (extent us).start = (extent ls).start := by
    rw [← hls, extent_start_append hus]
  have hstop : (extent vs).stop = (extent ls).stop := by
    rw [← hls', extent_stop_append hvs]
  obtain ⟨v, vs, rfl⟩ := List.exists_cons_of_ne_nil hvs
  have hv : v ∈ ls := by
    rw [← hls']
    simp
  obtain ⟨us, u, rfl⟩ := (List.eq_nil_or_concat' us).resolve_left hus
  have hu : u ∈ ls := by
    rw [← hls]
    simp
  have hle : (extent ls).start ≤ v.span.start := horder.start_le v hv
  have hle' : u.span.stop ≤ (extent ls).stop := horder.le_stop u hu
  have hfirst : (extent (v :: vs)).start = v.span.start := rfl
  have hlast : (extent (us ++ [u])).stop = u.span.stop := by simp [extent]
  show Span.mk _ _ = extent ls
  rw [hstart, hstop, hfirst, hlast, min_eq_left hle, max_eq_right hle']

end Extents

/-! ## Planted phrases -/

lemma Phrase.Full.leaves_ne_nil : ∀ {p : Phrase}, p.Full → p.leaves ≠ []
  | .leaf kind field span, _ => List.cons_ne_nil _ _
  | .node kind field [], .node hne _ => absurd rfl hne
  | .node kind field (p :: ps), .node _ hfull => by
    rw [Phrase.leaves, leavesOf]
    exact List.append_ne_nil_of_left_ne_nil (hfull p List.mem_cons_self).leaves_ne_nil _

/-- The span of a closed node depends on the spans of its first and its last child only. -/
lemma spanOf_reverse {ns : List Node} {s s' : Span} (cursor : Nat)
    (hfirst : (ns.map Node.span).head? = some s) (hlast : (ns.map Node.span).getLast? = some s') :
    OpenNode.spanOf cursor ns.reverse = s.cover s' := by
  rw [List.head?_map] at hfirst
  rw [List.getLast?_map] at hlast
  obtain ⟨n, hn, rfl⟩ := Option.map_eq_some_iff.1 hfirst
  obtain ⟨m, hm, rfl⟩ := Option.map_eq_some_iff.1 hlast
  rw [OpenNode.spanOf, List.getLast?_reverse, List.head?_reverse, hn, hm]

mutual

/-- A planted phrase reaches from the start of its first leaf to the end of its last. -/
theorem Phrase.span_plant : ∀ (p : Phrase) (id cursor : Nat), p.Full → LeavesInOrder p.leaves →
    (p.plant id cursor).span = extent p.leaves
  | .leaf kind field span, id, cursor, _, _ => rfl
  | .node kind field children, id, cursor, .node hne hfull, horder => by
    have hspans := map_span_plantAll children (id + 1) cursor hfull horder
    obtain ⟨p, ps, hfirst⟩ := List.exists_cons_of_ne_nil hne
    obtain ⟨init, q, hlast⟩ := (List.eq_nil_or_concat' children).resolve_left hne
    have hp : p.Full := hfull p (by simp [hfirst])
    have hq : q.Full := hfull q (by simp [hlast])
    have hstart : ((plantAll (id + 1) cursor children).map Node.span).head? =
        some (extent p.leaves) := by
      rw [hspans, hfirst]
      rfl
    have hstop : ((plantAll (id + 1) cursor children).map Node.span).getLast? =
        some (extent q.leaves) := by
      rw [hspans, hlast]
      simp
    rw [Phrase.plant, spanOf_reverse _ hstart hstop]
    refine extent_eq_cover horder ?_ ?_ hp.leaves_ne_nil hq.leaves_ne_nil
    · rw [Phrase.leaves, hfirst, leavesOf]
      exact List.prefix_append _ _
    · rw [Phrase.leaves, hlast, leavesOf_append, leavesOf, leavesOf, List.append_nil]
      exact List.suffix_append _ _

theorem map_span_plantAll : ∀ (ps : List Phrase) (id cursor : Nat), (∀ p ∈ ps, p.Full) →
    LeavesInOrder (leavesOf ps) →
    (plantAll id cursor ps).map Node.span = ps.map fun p => extent p.leaves
  | [], id, cursor, _, _ => rfl
  | p :: ps, id, cursor, hfull, horder => by
    obtain ⟨hp, hps⟩ := List.forall_mem_cons.1 hfull
    obtain ⟨horder', horder'', -⟩ := LeavesInOrder.append_iff.1 horder
    rw [plantAll, List.map_cons, List.map_cons, p.span_plant _ _ hp horder',
      map_span_plantAll ps _ _ hps horder'']

end

end FishScript
