/-
# Commands and what follows them

A source of words and ends of statements has no signs that could join something to a command. So
in every node of its tree what follows a command, if anything does, is the end of a statement
(`spaced_of_mem_preorder`). A command takes every word that it is offered, so it is complete only
when the end of a statement comes; and this end stays in the node that held the command.
-/
import Mathlib
import FishScript.Proofs.Grammar.Closing
import FishScript.Proofs.Grammar.Ends

namespace FishScript

/-- The terminal ends a statement. -/
def Terminal.EndsStatement (t : Terminal) : Prop := t.symbol = .separator ∨ t.symbol = .newline

/-- The terminal is a word or ends a statement. -/
def Terminal.IsPlain (t : Terminal) : Prop := (∃ w, t.symbol = .word w) ∨ t.EndsStatement

/-- What may follow a command in a node. -/
def Follows (kind next : NodeKind) : Prop := kind = .command → next = .terminator

/-- In the phrase and the phrases in it, only the end of a statement follows a command. -/
inductive Phrase.Spaced : Phrase → Prop
  /-- A leaf. -/
  | leaf {kind : NodeKind} {field : Option Field} {span : Span} : Spaced (.leaf kind field span)
  /-- A node. -/
  | node {kind : NodeKind} {field : Option Field} {children : List Phrase}
      (h : (children.map fun p => p.part.kind).IsChain Follows)
      (hchildren : ∀ p ∈ children, p.Spaced) : Spaced (.node kind field children)

lemma Expect.Fits.expect_of_command {source : Text} {gs : List Span} {clauses ps : List Part}
    {kind : NodeKind} {e : Expect} (hf : e.Fits source gs clauses kind ps) (hk : kind = .command) :
    ∃ staged scan, e = .arguments staged scan := by
  cases he : e.holder? with
  | some h =>
    have hkeeps := hf.keeps he
    rw [hk] at hkeeps
    cases h <;> cases hkeeps.1
  | none =>
    rw [hk] at hf
    cases e with
    | arguments staged scan => exact ⟨staged, scan, rfl⟩
    | finalWords =>
      obtain ⟨-, ⟨b, hb, -⟩ | ⟨hr, -⟩⟩ := hf
      · cases b <;> cases hb
      · cases hr
    | nothing => obtain ⟨-, ⟨hc, -⟩ | ⟨he, -⟩⟩ := hf <;> contradiction
    | strayWords | garbage | connectors | conjunctions | joined | stage | bar => cases hf.2.1
    | _ => cases he

namespace Frame

variable {f : Frame} {t : Terminal} {m : Move} {p : Phrase}

/-- Only the end of a statement follows a command so far. -/
structure Spaced (f : Frame) : Prop where
  chain : (f.phrases.map fun p => p.part.kind).IsChain fun next kind => Follows kind next
  inside : ∀ p ∈ f.phrases, p.Spaced

/-- The last phrase is no command. -/
def Rests (f : Frame) : Prop := ∀ p ∈ f.phrases.head?, p.part.kind ≠ .command

lemma Spaced.phrase (h : f.Spaced) : f.phrase.Spaced := by
  refine .node ?_ fun p hp => h.inside p (List.mem_reverse.1 hp)
  rw [List.map_reverse]
  exact List.isChain_reverse.2 h.chain

lemma Spaced.add (h : f.Spaced) (hp : p.Spaced)
    (hlast : f.Rests ∨ p.part.kind = .terminator) : (f.add p).Spaced := by
  refine ⟨List.isChain_cons.2 ⟨fun kind hkind => ?_, h.chain⟩,
    List.forall_mem_cons.2 ⟨hp, h.inside⟩⟩
  rw [List.head?_map, Option.mem_def, Option.map_eq_some_iff] at hkind
  obtain ⟨q, hq, rfl⟩ := hkind
  intro hcommand
  obtain hlast | hlast := hlast
  · exact absurd hcommand (hlast q hq)
  · exact hlast

lemma part_kind_ne_command {kind : NodeKind} {field : Option Field} {span : Span} {s : Symbol}
    (h : kind ∈ s.leafKinds) : (Phrase.leaf kind field span).part.kind ≠ .command := by
  rintro hk
  have hleaf := Symbol.isLeaf_of_mem_leafKinds h
  rw [show kind = .command from hk] at hleaf
  cases hleaf

lemma Spaced.move (h : f.Spaced) (ht : t.IsPlain) (hlast : f.Rests ∨ t.EndsStatement)
    (hm : f.Rule t m) :
    (m.frame.Spaced ∧ m.frame.Rests) ∧
      ∀ inner, m.inner? = some inner → inner.Spaced ∧ inner.Rests := by
  by_cases hends : t.EndsStatement
  · -- the terminal is a leaf of the node
    obtain ⟨e, -, -, rfl⟩ := hm.terminated hends
    have hadd : (f.add (.leaf .terminator none t.span)).Spaced := h.add .leaf (.inr rfl)
    refine ⟨⟨⟨hadd.chain, hadd.inside⟩, ?_⟩, fun inner hi => by cases hi⟩
    rintro p ⟨⟩
    simp [Phrase.part]
  · have hrests := hlast.resolve_right hends
    cases hm.effect with
    | @take kind leafKind leafField expect hk =>
      refine ⟨⟨?_, ?_⟩, fun inner hi => by cases hi⟩
      · have hadd := h.add (p := .leaf leafKind leafField t.span) .leaf (.inl hrests)
        exact ⟨hadd.chain, hadd.inside⟩
      rintro p ⟨⟩
      exact part_kind_ne_command hk
    | enter hk =>
      refine ⟨⟨⟨h.chain, h.inside⟩, hrests⟩, fun inner hi => ?_⟩
      cases hi
      refine ⟨⟨List.isChain_singleton _, List.forall_mem_singleton.2 .leaf⟩, ?_⟩
      rintro p ⟨⟩
      exact part_kind_ne_command hk
    | pipe he hs =>
      -- a bar is neither
      obtain ⟨w, hw⟩ := ht.resolve_right hends
      rw [hs] at hw
      cases hw

lemma ends_of_command {source : Text} {gs : List Span} (hr : f.Ready source gs t)
    (hk : f.kind = .command) (hn : f.accept t = none) (ht : t.IsPlain) : t.EndsStatement := by
  obtain ⟨clauses, hfits, -⟩ := hr
  obtain ⟨w, hw⟩ | ht := ht
  · exfalso
    obtain ⟨staged, scan, he⟩ := Expect.Fits.expect_of_command hfits hk
    rw [accept_eq_some_iff.2 (.argument he hw)] at hn
    cases hn
  · exact ht

end Frame

namespace Stack

variable {source : Text} {gs : List Span} {t : Terminal}

/-- What is known of the open nodes when a terminal is offered to the innermost. -/
structure Spaced (t : Terminal) (top : Frame) (below : List Frame) : Prop where
  spaced : top.Spaced
  last : top.Rests ∨ t.EndsStatement
  around : ∀ f ∈ below, f.Spaced ∧ f.Rests

lemma Spaced.pop {top next : Frame} {below : List Frame} (h : Spaced t top (next :: below))
    (hr : top.Ready source gs t) (hn : top.accept t = none) (ht : t.IsPlain) :
    Spaced t (next.add top.phrase) below := by
  obtain ⟨⟨hnext, hrests⟩, hbelow⟩ := List.forall_mem_cons.1 h.around
  refine ⟨hnext.add h.spaced.phrase (.inl hrests), ?_, hbelow⟩
  -- a command is complete only because the terminal ends it
  by_cases hk : top.kind = .command
  · exact .inr (Frame.ends_of_command hr hk hn ht)
  · refine .inl ?_
    rintro p ⟨⟩
    exact hk

/-- All open nodes hold commands that are followed by the end of a statement, none of them last. -/
def AllSpaced (s : Stack) : Prop := ∀ f ∈ s.top :: s.below, f.Spaced ∧ f.Rests

lemma AllSpaced.step {s : Stack} (hs : s.Steady source gs) (ht : t.IsPlain) (h : s.AllSpaced) :
    (s.step t).AllSpaced := by
  obtain ⟨⟨htop, hrests⟩, hbelow⟩ := List.forall_mem_cons.1 h
  refine hs.step_induction (P := Spaced t) (Q := AllSpaced) ⟨htop, .inl hrests, hbelow⟩
    (fun hoffered hn h => h.pop hoffered.ready hn ht) ?_
  intro top below m hoffered hm h
  obtain ⟨hframe, hinner⟩ := h.spaced.move ht h.last hm
  unfold ofMove
  cases hi : m.inner? with
  | none => exact List.forall_mem_cons.2 ⟨hframe, h.around⟩
  | some inner =>
    exact List.forall_mem_cons.2 ⟨hinner inner hi, List.forall_mem_cons.2 ⟨hframe, h.around⟩⟩

lemma AllSpaced.close {below : List Frame} {top : Frame} (htop : top.Spaced)
    (h : ∀ f ∈ below, f.Spaced ∧ f.Rests) : (Stack.close top below).Spaced := by
  induction below generalizing top with
  | nil => exact htop.phrase
  | cons next below ih =>
    obtain ⟨⟨hnext, hrests⟩, hbelow⟩ := List.forall_mem_cons.1 h
    exact ih (hnext.add htop.phrase (.inl hrests)) hbelow

end Stack

/-- In the phrase of words and ends of statements only these ends follow commands. -/
theorem parseTerminals_spaced {source : Text} {gs : List Span} {ts : List Terminal}
    (hts : ∀ t ∈ ts, t.Reads source ∧ t.Known gs) (hplain : ∀ t ∈ ts, t.IsPlain) :
    (parseTerminals ts).Spaced := by
  have hinitial : Stack.AllSpaced .initial :=
    List.forall_mem_singleton.2 ⟨⟨List.isChain_nil, List.forall_mem_nil _⟩, fun p hp => by cases hp⟩
  have hspaced := Stack.Steady.run_induction hinitial
    (fun ht hs _ _ h => h.step hs (hplain _ ht)) hts
  obtain ⟨⟨htop, -⟩, hbelow⟩ := List.forall_mem_cons.1 hspaced
  exact Stack.AllSpaced.close htop hbelow

/-! ## Trees -/

lemma map_kind_plantAll (ps : List Phrase) (id cursor : Nat) :
    (plantAll id cursor ps).map Node.kind = ps.map fun p => p.part.kind := by
  induction ps generalizing id cursor with
  | nil => rfl
  | cons p ps ih =>
    rw [plantAll, List.map_cons, List.map_cons, ih]
    cases p <;> rfl

mutual

/-- In the nodes of such a phrase only ends of statements follow commands. -/
theorem Phrase.Spaced.plant : ∀ {p : Phrase} (id cursor : Nat), p.Spaced →
    ∀ n ∈ (p.plant id cursor).preorder, (n.children.map Node.kind).IsChain Follows
  | .leaf kind field span, id, cursor, _, n, hn => by
    rw [List.mem_singleton.1 hn]
    exact List.isChain_nil
  | .node kind field children, id, cursor, .node h hchildren, n, hn => by
    rcases List.mem_cons.1 hn with rfl | hn
    · rw [map_kind_plantAll]
      exact h
    · exact spaced_plantAll (id + 1) cursor hchildren n hn

theorem spaced_plantAll : ∀ {ps : List Phrase} (id cursor : Nat), (∀ p ∈ ps, p.Spaced) →
    ∀ n ∈ preorderAll (plantAll id cursor ps), (n.children.map Node.kind).IsChain Follows
  | p :: ps, id, cursor, h, n, hn => by
    obtain ⟨hp, hps⟩ := List.forall_mem_cons.1 h
    rcases List.mem_append.1 hn with hn | hn
    · exact hp.plant id cursor n hn
    · exact spaced_plantAll _ _ hps n hn

end

/-- In the tree of a source of words and ends of statements only these ends follow commands. -/
theorem spaced_of_mem_preorder {source : Text} (hplain : ∀ t ∈ limited source, t.IsPlain) :
    ∀ n ∈ (rootOf source).preorder, (n.children.map Node.kind).IsChain Follows :=
  (parseTerminals_spaced (fun _ ht => known_of_mem_limited ht) hplain).plant 0 0

end FishScript
