/-
# Tokens stand in order

The tokens of a source follow one another without overlap. The nesting limit keeps this: a block
that is folded reaches from the start of its first terminal to the end of its last.
-/
import Mathlib
import FishScript.Grammar.Nesting

namespace FishScript

/-- The spans are not reversed, and each ends before the next one starts. -/
structure InOrder (ss : List Span) : Prop where
  forward : ∀ s ∈ ss, s.start ≤ s.stop
  apart : ss.Pairwise fun s s' => s.stop ≤ s'.start

namespace InOrder

variable {s : Span} {ss ss' : List Span}

lemma nil : InOrder [] := ⟨by simp, .nil⟩

lemma cons_iff : InOrder (s :: ss) ↔
    s.start ≤ s.stop ∧ (∀ s' ∈ ss, s.stop ≤ s'.start) ∧ InOrder ss := by
  constructor
  · rintro ⟨hforward, hapart⟩
    obtain ⟨hs, hss⟩ := List.forall_mem_cons.1 hforward
    obtain ⟨hlater, hss'⟩ := List.pairwise_cons.1 hapart
    exact ⟨hs, hlater, hss, hss'⟩
  · rintro ⟨hs, hlater, hss, hss'⟩
    exact ⟨List.forall_mem_cons.2 ⟨hs, hss⟩, List.pairwise_cons.2 ⟨hlater, hss'⟩⟩

lemma append_iff : InOrder (ss ++ ss') ↔
    InOrder ss ∧ InOrder ss' ∧ ∀ s ∈ ss, ∀ s' ∈ ss', s.stop ≤ s'.start := by
  constructor
  · rintro ⟨hforward, hapart⟩
    obtain ⟨hss, hss'⟩ := List.forall_mem_append.1 hforward
    obtain ⟨hpss, hpss', hbetween⟩ := List.pairwise_append.1 hapart
    exact ⟨⟨hss, hpss⟩, ⟨hss', hpss'⟩, hbetween⟩
  · rintro ⟨⟨hss, hpss⟩, ⟨hss', hpss'⟩, hbetween⟩
    exact ⟨List.forall_mem_append.2 ⟨hss, hss'⟩, List.pairwise_append.2 ⟨hpss, hpss', hbetween⟩⟩

end InOrder

/-! ## Tokens -/

/-- Tokens stand in order, behind the characters that belong to what was read before. -/
lemma inOrder_tokensFrom : ∀ (t : Text) (pending offset : Nat),
    InOrder ((tokensFrom pending offset t).map Token.span) ∧
      ∀ tok ∈ tokensFrom pending offset t, offset + Text.byteLength (t.take pending) ≤ tok.start
  | [], pending, offset => ⟨.nil, fun tok h => by cases h⟩
  | c :: t, n + 1, offset => by
    obtain ⟨horder, hstart⟩ := inOrder_tokensFrom t n (offset + c.utf8Size)
    refine ⟨horder, fun tok htok => ?_⟩
    have := hstart tok htok
    rw [List.take_succ_cons, Text.byteLength_cons]
    omega
  | c :: t, 0, offset => by
    obtain ⟨horder, hstart⟩ :=
      inOrder_tokensFrom t ((munch (c :: t)).size - 1) (offset + c.utf8Size)
    rw [tokensFrom]
    split
    case h_1 kind hkind =>
      have hstop : ∀ tok ∈ tokensFrom ((munch (c :: t)).size - 1) (offset + c.utf8Size) t,
          offset + Text.byteLength ((c :: t).take (munch (c :: t)).size) ≤ tok.start := by
        intro tok htok
        have hle := hstart tok htok
        cases hsize : (munch (c :: t)).size with
        | zero =>
          rw [List.take_zero, Text.byteLength_nil]
          omega
        | succ n =>
          rw [hsize, Nat.add_sub_cancel] at hle
          rw [List.take_succ_cons, Text.byteLength_cons]
          omega
      constructor
      · rw [List.map_cons, InOrder.cons_iff]
        refine ⟨Nat.le_add_right _ _, ?_, horder⟩
        intro s hs
        obtain ⟨tok, htok, rfl⟩ := List.mem_map.1 hs
        exact hstop tok htok
      · intro tok htok
        rcases List.mem_cons.1 htok with rfl | htok
        · exact Nat.le_refl _
        · have hle := hstart tok htok
          rw [List.take_zero, Text.byteLength_nil]
          omega
    case h_2 =>
      refine ⟨horder, fun tok htok => ?_⟩
      have hle := hstart tok htok
      rw [List.take_zero, Text.byteLength_nil]
      omega

lemma inOrder_terminals (source : Text) : InOrder ((terminals source).map Terminal.span) := by
  have h := (inOrder_tokensFrom source 0 0).1
  rw [terminals, List.map_map]
  exact h

/-! ## Behind the nesting limit -/

/-- A fold stands for the terminals that it has swallowed, so it may take one more. -/
lemma inOrder_grow {a b : Nat} {s : Span} {ss : List Span} (h : InOrder (⟨a, b⟩ :: s :: ss)) :
    InOrder (⟨a, s.stop⟩ :: ss) := by
  rw [InOrder.cons_iff, InOrder.cons_iff] at h
  obtain ⟨hab, hb, hs, hss, horder⟩ := h
  have hle : b ≤ s.start := hb s List.mem_cons_self
  rw [InOrder.cons_iff]
  exact ⟨hab.trans (hle.trans hs), hss, horder⟩

/-- The terminals `out` stand in order, and no earlier than the terminals `ts`. -/
def Stands (ts out : List Terminal) : Prop :=
  InOrder (out.map Terminal.span) ∧
    ∀ n, (∀ t ∈ ts, n ≤ t.span.start) → ∀ t ∈ out, n ≤ t.span.start

lemma Stands.cons {u : Terminal} {ts out : List Terminal}
    (h : InOrder ((u :: ts).map Terminal.span)) (hout : Stands ts out) :
    Stands (u :: ts) (u :: out) := by
  obtain ⟨hforward, hlater, -⟩ := InOrder.cons_iff.1 h
  obtain ⟨horder, hbound⟩ := hout
  constructor
  · refine InOrder.cons_iff.2 ⟨hforward, fun s hs => ?_, horder⟩
    obtain ⟨t, ht, rfl⟩ := List.mem_map.1 hs
    exact hbound _ (fun t' ht' => hlater _ (List.mem_map.2 ⟨t', ht', rfl⟩)) t ht
  · intro n hn
    obtain ⟨hu, hrest⟩ := List.forall_mem_cons.1 hn
    exact List.forall_mem_cons.2 ⟨hu, hbound n hrest⟩

/-- The start of a fold, not its end, says where it stands. -/
lemma Stands.of_fold {f : Fold} {u : Terminal} {stop depth : Nat} {ts out : List Terminal}
    (h : Stands ((Fold.mk depth f.start stop).terminal :: ts) out) :
    Stands (f.terminal :: u :: ts) out := by
  refine ⟨h.1, fun n hn => h.2 n (List.forall_mem_cons.2 ?_)⟩
  exact ⟨hn f.terminal List.mem_cons_self, fun t ht => hn t (by simp [ht])⟩

/-- Behind the limit the terminals stand in order, and none of them starts before the first. -/
lemma stands_limitFrom : ∀ (ts : List Terminal) (scan : NestingScan) (depth : Nat)
    (fold? : Option Fold),
    InOrder ((fold?.elim ts fun f => f.terminal :: ts).map Terminal.span) →
    Stands (fold?.elim ts fun f => f.terminal :: ts) (limitFrom scan depth fold? ts)
  | [], scan, depth, none, h => ⟨.nil, fun n _ t ht => by cases ht⟩
  | [], scan, depth, some fold, h => ⟨h, fun n hn => hn⟩
  | u :: ts, scan, depth, some fold, h => by
    have hgrow : InOrder ((⟨.garbage, ⟨fold.start, u.span.stop⟩⟩ :: ts : List Terminal).map
        Terminal.span) := inOrder_grow h
    unfold limitFrom
    simp only
    split
    · -- the folded block is complete, and its terminal stands before the rest
      have hrest := stands_limitFrom ts (scan.next u.symbol) depth none
        (InOrder.cons_iff.1 hgrow).2.2
      exact Stands.of_fold (Stands.cons hgrow hrest)
    · exact Stands.of_fold (stands_limitFrom ts (scan.next u.symbol) depth
        (some ⟨fold.depthAfter (scan.effect u.symbol), fold.start, u.span.stop⟩) hgrow)
  | u :: ts, scan, depth, none, h => by
    have hkeep : ∀ depth',
        Stands (u :: ts) (u :: limitFrom (scan.next u.symbol) depth' none ts) := fun depth' =>
      Stands.cons h
        (stands_limitFrom ts (scan.next u.symbol) depth' none (InOrder.cons_iff.1 h).2.2)
    unfold limitFrom
    simp only
    split
    · rename_i hnone
      cases hnone
    · split
      · -- a block is folded from here on
        obtain ⟨horder, hbound⟩ := stands_limitFrom ts (scan.next u.symbol) depth
          (some ⟨1, u.span.start, u.span.stop⟩) h
        refine ⟨horder, fun n hn => hbound n ?_⟩
        exact List.forall_mem_cons.2 (List.forall_mem_cons.1 hn)
      · exact hkeep _
    · exact hkeep _
    · exact hkeep _

theorem inOrder_limitNesting (source : Text) :
    InOrder ((limitNesting (terminals source)).map Terminal.span) :=
  (stands_limitFrom _ _ _ none (inOrder_terminals source)).1

end FishScript
