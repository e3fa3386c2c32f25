/-
# What a run keeps

Between two terminals much is known of the open nodes: how they stand in each other, what they
hold and what each of them waits for. The induction over a step and the one over a run hand this
knowledge to whoever proves that something else is kept.
-/
import Mathlib
import FishScript.Proofs.Grammar.Depth

namespace FishScript.Stack

variable {source : Text} {gs : List Span} {t : Terminal}

/-- What is known of the open nodes when a terminal is offered to the innermost. -/
structure Offered (source : Text) (gs : List Span) (t : Terminal) (top : Frame)
    (below : List Frame) : Prop where
  rooted : Rooted top below
  nested : Nested top below
  filled : FilledUpTo top below
  ready : top.Ready source gs t
  chained : Chained source gs top below

lemma Offered.pop {top next : Frame} {below : List Frame}
    (h : Offered source gs t top (next :: below)) (hn : top.accept t = none) :
    Offered source gs t (next.add top.phrase) below := by
  obtain ⟨clauses, hfits, -⟩ := id h.ready
  exact ⟨h.rooted.pop _, h.nested.pop _, h.filled.pop, Frame.Ready.pop h.chained.2.1 h.ready hn,
    h.chained.pop hfits⟩

/-- The stack is as it is between two terminals, and no node but the program is empty. -/
structure Steady (source : Text) (gs : List Span) (s : Stack) : Prop where
  settled : s.Settled source gs
  filled : FilledUpTo s.top s.below

namespace Steady

variable {s : Stack}

lemma initial : Steady source gs .initial := ⟨settled_initial, filledUpTo_initial⟩

lemma offered (h : s.Steady source gs) (t : Terminal) : Offered source gs t s.top s.below :=
  ⟨h.settled.grounded, h.settled.nested, h.filled, h.settled.wellShaped.1.ready t,
    h.settled.wellShaped.2⟩

lemma step (h : s.Steady source gs) (ht : t.Reads source) (hg : t.Known gs) :
    (s.step t).Steady source gs :=
  ⟨(h.settled.step ht hg).1, Stack.step_induction (P := FilledUpTo)
    (Q := fun s => FilledUpTo s.top s.below) h.settled.grounded h.filled (fun h _ => h.pop)
    FilledUpTo.move⟩

/-- What is kept when a complete node is closed turns, when a node takes the terminal, into what
holds after the step. -/
theorem step_induction (h : s.Steady source gs) {P : Frame → List Frame → Prop}
    {Q : Stack → Prop} (hP : P s.top s.below)
    (pop : ∀ {top next below}, Offered source gs t top (next :: below) → top.accept t = none →
      P top (next :: below) → P (next.add top.phrase) below)
    (move : ∀ {top below m}, Offered source gs t top below → top.Rule t m → P top below →
      Q (ofMove m below)) : Q (s.step t) :=
  Stack.step_induction (P := fun top below => Offered source gs t top below ∧ P top below)
    h.settled.grounded ⟨h.offered t, hP⟩ (fun h hn => ⟨h.1.pop hn, pop h.1 hn h.2⟩)
    (fun h hm => move h.1 hm h.2)

theorem foldl {ts : List Terminal} (hts : ∀ t ∈ ts, t.Reads source ∧ t.Known gs) :
    (ts.foldl Stack.step .initial).Steady source gs := by
  induction ts using List.reverseRecOn with
  | nil => exact initial
  | append_singleton ts t ih =>
    obtain ⟨ht, hg⟩ := hts t (by simp)
    rw [List.foldl_append, List.foldl_cons, List.foldl_nil]
    exact (ih fun u hu => hts u (List.mem_append_left _ hu)).step ht hg

/-- What every step keeps of a stack and the terminals before it holds after a run. -/
theorem run_induction_of_prefix {I : List Terminal → Stack → Prop} (h₀ : I [] .initial)
    {ts : List Terminal}
    (step : ∀ {s done t}, done ++ [t] <+: ts → s.Steady source gs → t.Reads source → t.Known gs →
      I done s → I (done ++ [t]) (s.step t))
    (hts : ∀ t ∈ ts, t.Reads source ∧ t.Known gs) : I ts (ts.foldl Stack.step .initial) := by
  induction ts using List.reverseRecOn with
  | nil => exact h₀
  | append_singleton ts t ih =>
    have hbefore : ∀ u ∈ ts, u.Reads source ∧ u.Known gs := fun u hu =>
      hts u (List.mem_append_left _ hu)
    obtain ⟨ht, hg⟩ := hts t (by simp)
    rw [List.foldl_append, List.foldl_cons, List.foldl_nil]
    exact step List.prefix_rfl (foldl hbefore) ht hg
      (ih (fun hp => step (hp.trans (List.prefix_append ts [t]))) hbefore)

theorem run_induction {I : Stack → Prop} (h₀ : I .initial) {ts : List Terminal}
    (step : ∀ {s t}, t ∈ ts → s.Steady source gs → t.Reads source → t.Known gs → I s →
      I (s.step t))
    (hts : ∀ t ∈ ts, t.Reads source ∧ t.Known gs) : I (ts.foldl Stack.step .initial) :=
  run_induction_of_prefix (I := fun _ s => I s) h₀
    (fun hp => step (hp.subset (List.mem_append_right _ (List.mem_singleton_self _)))) hts

end Steady

end FishScript.Stack
