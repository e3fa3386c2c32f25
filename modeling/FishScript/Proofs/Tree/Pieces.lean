/-
# Nodes are pieces of the source

A token begins and ends between two characters and is not empty. A block that the nesting limit
folds reaches from the start of a token to the end of a later one, and so does a node with leaves.
Hence every node of a tree is a piece of the source (`within_of_mem_preorder`); only the root of a
source without tokens has no text at all.
-/
import Mathlib
import FishScript.Proofs.Grammar.FoldedRuns
import FishScript.Proofs.Token.Munching
import FishScript.Proofs.Tree.Extent

namespace FishScript

/-! ## Boundaries -/

namespace Text

lemma isBoundary_iff {n : Nat} {t : Text} :
    isBoundary n t = true ↔ ∃ front rest, t = front ++ rest ∧ n = byteLength front := by
  constructor
  · intro h
    obtain ⟨rest, hrest⟩ := Option.isSome_iff_exists.1 h
    clear h
    fun_induction skipBytes? n t with
    | case1 t => exact ⟨[], t, rfl, rfl⟩
    | case2 => cases hrest
    | case3 n c t hle ih =>
      obtain ⟨front, rest', rfl, hn⟩ := ih hrest
      exact ⟨c :: front, rest', rfl, by rw [byteLength_cons, ← hn]; omega⟩
    | case4 => cases hrest
  · rintro ⟨front, rest, rfl, rfl⟩
    rw [isBoundary, skipBytes?_byteLength]
    rfl

/-- Of two beginnings of a text the one with fewer bytes is a beginning of the other. -/
lemma exists_eq_append_of_byteLength_lt {front rest front' rest' : Text}
    (h : front ++ rest = front' ++ rest') (hlt : byteLength front < byteLength front') :
    ∃ piece, piece ≠ [] ∧ front' = front ++ piece ∧ rest = piece ++ rest' := by
  obtain ⟨piece, rfl, rfl⟩ | ⟨piece, rfl, rfl⟩ := List.append_eq_append_iff.1 h
  · refine ⟨piece, ?_, rfl, rfl⟩
    rintro rfl
    simp at hlt
  · rw [byteLength_append] at hlt
    omega

end Text

/-- The span begins and ends between characters of the source and is not empty. -/
structure Span.Within (source : Text) (s : Span) : Prop where
  nonempty : s.start < s.stop
  starts : Text.isBoundary s.start source = true
  stops : Text.isBoundary s.stop source = true

namespace Span.Within

variable {source : Text} {s s' : Span} {ss : List Span}

/-- What is before the span, what is in it and what is behind it. -/
lemma pieces (h : s.Within source) : ∃ above piece below, source = above ++ piece ++ below ∧
    piece ≠ [] ∧ s = ⟨above.byteLength, (above ++ piece).byteLength⟩ := by
  obtain ⟨above, rest, rfl, hstart⟩ := Text.isBoundary_iff.1 h.starts
  obtain ⟨front, below, heq, hstop⟩ := Text.isBoundary_iff.1 h.stops
  have hlt := h.nonempty
  rw [hstart, hstop] at hlt
  obtain ⟨piece, hne, rfl, rfl⟩ := Text.exists_eq_append_of_byteLength_lt heq hlt
  refine ⟨above, piece, below, (List.append_assoc _ _ _).symm, hne, ?_⟩
  rw [← hstart, ← hstop]

/-- From the start of the first of some spans in order to the end of the last. -/
lemma of_ends (h : ∀ s ∈ ss, s.Within source) (horder : InOrder ss) (hs : s ∈ ss.head?)
    (hs' : s' ∈ ss.getLast?) : (⟨s.start, s'.stop⟩ : Span).Within source := by
  have hfirst := h s (List.mem_of_mem_head? hs)
  have hmem : s' ∈ ss := List.mem_of_mem_getLast? hs'
  refine ⟨?_, hfirst.starts, (h s' hmem).stops⟩
  obtain ⟨rest, rfl⟩ := List.head?_eq_some_iff.1 hs
  rcases List.mem_cons.1 hmem with rfl | hlater
  · exact hfirst.nonempty
  · obtain ⟨-, hapart, hrest⟩ := InOrder.cons_iff.1 horder
    exact hfirst.nonempty.trans_le ((hapart s' hlater).trans (hrest.forward s' hlater))

end Span.Within

/-! ## Terminals -/

lemma InOrder.sublist {ss ss' : List Span} (h : InOrder ss) (hsub : ss'.Sublist ss) :
    InOrder ss' :=
  ⟨fun s hs => h.forward s (hsub.subset hs), h.apart.sublist hsub⟩

section Terminals

variable {source : Text} {t : Terminal}

lemma within_of_mem_terminals (h : t ∈ terminals source) : t.span.Within source := by
  obtain ⟨tok, htok, rfl⟩ := List.mem_map.1 h
  obtain ⟨before, after, heq⟩ := List.append_of_mem htok
  have hlaid := laid_tokensFrom source 0
  rw [← tokens, heq] at hlaid
  obtain ⟨front, rest, rfl, hstart, hne, -⟩ := hlaid.split
  rw [Nat.zero_add] at hstart
  refine ⟨Nat.lt_add_of_pos_right (byteLength_pos hne), Text.isBoundary_iff.2 ?_,
    Text.isBoundary_iff.2 ?_⟩
  · exact ⟨front, tok.text ++ rest, List.append_assoc _ _ _, hstart⟩
  · refine ⟨front ++ tok.text, rest, rfl, ?_⟩
    rw [Text.byteLength_append, ← hstart]
    rfl

lemma within_of_mem_limited (h : t ∈ limited source) : t.span.Within source := by
  obtain ⟨ss, -, hterminals, hresult⟩ := cuts_limitFrom (terminals source) .initial 0
  rw [limited, limitNesting, ← hresult] at h
  obtain ⟨s, hs, rfl⟩ := List.mem_map.1 h
  have hsub : s.terminals.Sublist (terminals source) := by
    rw [← hterminals]
    exact List.sublist_flatten_of_mem (List.mem_map_of_mem hs)
  have hwithin : ∀ u ∈ s.terminals, u.span.Within source := fun u hu =>
    within_of_mem_terminals (hsub.subset hu)
  cases s with
  | kept t => exact hwithin t List.mem_cons_self
  | folded first rest =>
    have horder := (inOrder_terminals source).sublist (hsub.map Terminal.span)
    refine Span.Within.of_ends (List.forall_mem_map.2 hwithin) horder rfl ?_
    simp [Stretch.terminals, List.getLast?_cons]

end Terminals

/-! ## Nodes -/

mutual

/-- A node of a planted phrase reaches from the start of the first of some leaves to the end of the
last. -/
theorem Phrase.extent_of_mem_plant : ∀ {p : Phrase} {id cursor : Nat}, p.Full →
    LeavesInOrder p.leaves → ∀ n ∈ (p.plant id cursor).preorder,
      ∃ ls, ls ≠ [] ∧ ls.Sublist p.leaves ∧ n.span = extent ls
  | .leaf kind field span, id, cursor, _, _, n, hn => by
    rw [List.mem_singleton.1 hn]
    exact ⟨_, List.cons_ne_nil _ _, .refl _, rfl⟩
  | .node kind field children, id, cursor, hfull, horder, n, hn => by
    rcases List.mem_cons.1 hn with rfl | hn
    · exact ⟨_, hfull.leaves_ne_nil, .refl _,
        (Phrase.node kind field children).span_plant id cursor hfull horder⟩
    · obtain _ | ⟨hne, hchildren⟩ := hfull
      exact extent_of_mem_plantAll hchildren horder n hn

theorem extent_of_mem_plantAll : ∀ {ps : List Phrase} {id cursor : Nat}, (∀ p ∈ ps, p.Full) →
    LeavesInOrder (leavesOf ps) → ∀ n ∈ preorderAll (plantAll id cursor ps),
      ∃ ls, ls ≠ [] ∧ ls.Sublist (leavesOf ps) ∧ n.span = extent ls
  | p :: ps, id, cursor, hfull, horder, n, hn => by
    obtain ⟨hp, hps⟩ := List.forall_mem_cons.1 hfull
    obtain ⟨horder', horder'', -⟩ := LeavesInOrder.append_iff.1 horder
    rcases List.mem_append.1 hn with hn | hn
    · obtain ⟨ls, hne, hsub, hspan⟩ := Phrase.extent_of_mem_plant hp horder' n hn
      exact ⟨ls, hne, hsub.trans (List.sublist_append_left _ _), hspan⟩
    · obtain ⟨ls, hne, hsub, hspan⟩ := extent_of_mem_plantAll hps horder'' n hn
      exact ⟨ls, hne, hsub.trans (List.sublist_append_right _ _), hspan⟩

end

variable {source : Text} {n : Node}

lemma within_extent {ls : List Leaf} (hne : ls ≠ []) (horder : LeavesInOrder ls)
    (h : ∀ l ∈ ls, l.span.Within source) : (extent ls).Within source := by
  obtain ⟨first, rest, hfirst⟩ := List.exists_cons_of_ne_nil hne
  obtain ⟨init, last, hlast⟩ := (List.eq_nil_or_concat' ls).resolve_left hne
  have hextent : extent ls = ⟨first.span.start, last.span.stop⟩ := by
    refine congrArg₂ Span.mk ?_ ?_
    · rw [hfirst]
      rfl
    · rw [hlast, List.getLast?_concat]
      rfl
  rw [hextent]
  exact .of_ends (List.forall_mem_map.2 h) horder (by simp [hfirst]) (by simp [hlast])

/-- In the tree of a source a node is a piece of the source, except the root if it holds nothing. -/
theorem within_of_mem_preorder (hn : n ∈ (rootOf source).preorder) :
    n.span.Within source ∨ n = rootOf source ∧ (rootOf source).children = [] := by
  obtain ⟨children, heq, hfull, hleaves⟩ := parseTerminals_leaves (limited source)
  have hspans := map_span_leaves hleaves
  have horder : LeavesInOrder (leavesOf children) := by
    rw [LeavesInOrder, hspans]
    exact inOrder_limitNesting source
  rw [rootOf, heq] at hn ⊢
  by_cases hne : children = []
  · subst hne
    exact .inr ⟨List.mem_singleton.1 hn, rfl⟩
  · obtain ⟨ls, hls, hsub, hspan⟩ := Phrase.extent_of_mem_plant (.node hne hfull) horder n hn
    rw [hspan]
    refine .inl (within_extent hls (horder.sublist (hsub.map Leaf.span)) fun l hl => ?_)
    have hmem : l.span ∈ (limited source).map Terminal.span :=
      hspans ▸ List.mem_map_of_mem (hsub.subset hl)
    obtain ⟨t, ht, heq⟩ := List.mem_map.1 hmem
    exact heq ▸ within_of_mem_limited ht

end FishScript
