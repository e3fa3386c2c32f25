/-
# What every open node keeps

A property of open nodes that a move keeps, in the node and in a new one inside it, and that a node
keeps when it takes a complete one, holds of all open nodes of a run. If it says something about the
phrase of a complete node, this is so for every node of the tree of a source (`IsKept.of_mem`).
-/
import Mathlib
import FishScript.Proofs.Grammar.Neighbours

namespace FishScript

/-- The property of open nodes is kept while the terminals are read. -/
structure Frame.IsKept (source : Text) (gs : List Span) (ts : List Terminal) (I : Frame → Prop) :
    Prop where
  /-- The program has it. -/
  initial : I Stack.initial.top
  /-- A node keeps it when it takes a complete one. -/
  add : ∀ {f inner : Frame}, I f → I inner → f.Awaits source inner → inner.kind ≠ .program →
    I (f.add inner.phrase)
  /-- A move keeps it, and a new node has it. -/
  move : ∀ {f : Frame} {t : Terminal} {m : Move}, t ∈ ts → I f → f.Ready source gs t → f.Rule t m →
    I m.frame ∧ ∀ inner, m.inner? = some inner → I inner

lemma Frame.Fits.kind_ne_program {source : Text} {gs : List Span} {clauses : List Part} {f : Frame}
    (hf : f.Fits source gs clauses) (h : f.expect.holder? ≠ some .program) :
    f.kind ≠ .program := by
  rintro hk
  obtain ⟨kind, field, phrases, e⟩ := f
  obtain rfl : kind = .program := hk
  cases he : e.holder? with
  | some holder =>
    have hkeeps := Expect.Fits.keeps hf he
    cases holder with
    | program => exact h he
    | _ => cases hkeeps.1
  | none =>
    cases e with
    | finalWords =>
      obtain ⟨-, ⟨b, hb, -⟩ | ⟨hk, -⟩⟩ := hf
      · cases b <;> cases hb
      · cases hk
    | nothing => obtain ⟨-, ⟨hk, -⟩ | ⟨hk, -⟩⟩ := hf <;> cases hk
    | strayWords | garbage | arguments | conjunctions | joined | stage | bar | connectors =>
      cases hf.2.1
    | _ => cases he

namespace Frame.IsKept

variable {source : Text} {gs : List Span} {ts : List Terminal} {t : Terminal} {I : Frame → Prop}
  {P : NodeKind → List Part → Prop}

lemma pop (hI : IsKept source gs ts I) {top next : Frame} {below : List Frame}
    {clauses : List Part} (hf : top.Fits source gs clauses)
    (hnested : Stack.Nested top (next :: below)) (hawaits : next.Awaits source top)
    (h : ∀ f ∈ top :: next :: below, I f) : ∀ f ∈ next.add top.phrase :: below, I f := by
  obtain ⟨htop, hrest⟩ := List.forall_mem_cons.1 h
  obtain ⟨hnext, hbelow⟩ := List.forall_mem_cons.1 hrest
  exact List.forall_mem_cons.2
    ⟨hI.add hnext htop hawaits (hf.kind_ne_program hnested.1), hbelow⟩

lemma step (hI : IsKept source gs ts I) {s : Stack} (hs : s.Steady source gs) (ht : t ∈ ts)
    (h : ∀ f ∈ s.top :: s.below, I f) : ∀ f ∈ (s.step t).top :: (s.step t).below, I f := by
  refine hs.step_induction (P := fun top below => ∀ f ∈ top :: below, I f)
    (Q := fun s => ∀ f ∈ s.top :: s.below, I f) h (fun hoffered _ h => ?_) ?_
  · obtain ⟨clauses, hfits, -⟩ := id hoffered.ready
    exact hI.pop hfits hoffered.nested hoffered.chained.2.1 h
  intro top below m hoffered hm h
  obtain ⟨htop, hbelow⟩ := List.forall_mem_cons.1 h
  obtain ⟨hframe, hinner⟩ := hI.move ht htop hoffered.ready hm
  unfold Stack.ofMove
  cases hi : m.inner? with
  | none => exact List.forall_mem_cons.2 ⟨hframe, hbelow⟩
  | some inner =>
    exact List.forall_mem_cons.2 ⟨hinner inner hi, List.forall_mem_cons.2 ⟨hframe, hbelow⟩⟩

lemma close (hI : IsKept source gs ts I) (hP : ∀ f, I f → f.phrase.Each P) {below : List Frame}
    {top : Frame} {clauses : List Part} (h : ∀ f ∈ top :: below, I f)
    (hf : top.Fits source gs clauses) (hnested : Stack.Nested top below)
    (hc : Stack.Chained source gs top below) : (Stack.close top below).Each P := by
  induction below generalizing top clauses with
  | nil => exact hP top (h top List.mem_cons_self)
  | cons next below ih =>
    obtain ⟨clauses', hf', -⟩ := hc.2.1.add gs
    exact ih (hI.pop hf hnested hc.2.1 h) hf' (hnested.pop _) (hc.pop hf)

/-- What a kept property says of complete nodes holds of every node in the phrase of the
terminals. -/
theorem parseTerminals (hI : IsKept source gs ts I) (hP : ∀ f, I f → f.phrase.Each P)
    (hts : ∀ t ∈ ts, t.Reads source ∧ t.Known gs) : (parseTerminals ts).Each P := by
  have h := Stack.Steady.run_induction (I := fun s => ∀ f ∈ s.top :: s.below, I f)
    (List.forall_mem_singleton.2 hI.initial) (fun ht hs _ _ h => hI.step hs ht h) hts
  have hsteady := Stack.Steady.foldl hts
  exact hI.close hP h hsteady.settled.wellShaped.1 hsteady.settled.nested
    hsteady.settled.wellShaped.2

/-- So it holds of every node of the tree of a source that has children. -/
theorem of_mem (hI : IsKept source (garbagePlaces source) (limited source) I)
    (hP : ∀ f, I f → f.phrase.Each P) {n : Node} (hn : n ∈ (rootOf source).preorder) :
    n.children = [] ∨ P n.kind n.parts :=
  (hI.parseTerminals hP fun _ ht => known_of_mem_limited ht).rootOf n hn

end Frame.IsKept

end FishScript
