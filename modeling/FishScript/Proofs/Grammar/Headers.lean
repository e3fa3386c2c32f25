/-
# What stands before a name

A function has its name in its header, and so has a loop its variable; a command has it in front.
Before it stand only the opening word and options, and these are leaves. So in every node of a tree
nothing with nodes of its own comes before a name (`namesLead_of_mem_preorder`), and a walk meets
the name of a function before it meets what the function holds.
-/
import Mathlib
import FishScript.Proofs.Grammar.Keeping

namespace FishScript

/-- Before a name stand only leaves. -/
def NamesLead (ps : List Part) : Prop :=
  ps.Pairwise fun q p => p.field = some .name → q.leaf?.isSome

namespace Expect

/-- The node is in its header and has no name yet. -/
def seeksName : Expect → Bool
  | .functionHeader false | .loopHeader false _ => true
  | _ => false

lemma Awaits.seeksName {source : Text} {kind : NodeKind} {ps : List Part} {field : Option Field}
    {clauseOf? : Option Block} {e : Expect} (h : e.Awaits source kind ps field clauseOf?) :
    e.seeksName = false := by
  have hwordless := h.isWordless
  cases e with
  | functionHeader | loopHeader => cases hwordless
  | _ => rfl

end Expect

namespace Frame

variable {source : Text} {f inner : Frame} {t : Terminal} {m : Move} {p : Phrase}

/-- Names come first so far, and while the node is in its header everything is a leaf. -/
structure Headed (f : Frame) : Prop where
  names : NamesLead f.parts
  header : f.expect.seeksName = true → ∀ p ∈ f.parts, p.leaf?.isSome
  inside : ∀ p ∈ f.phrases, p.Each fun _ => NamesLead

lemma Headed.phrase (h : f.Headed) : f.phrase.Each fun _ => NamesLead :=
  .node h.names fun p hp => h.inside p (List.mem_reverse.1 hp)

/-- A node takes a name only in its header, and no node gets back into its header. -/
lemma Rule.header (hm : f.Rule t m) :
    (∃ kind leafKind field e, m = { f with kind }.take leafKind field t e ∧
      (field = some .name ∨ e.seeksName = true → f.expect.seeksName = true)) ∨
    (∃ kind field leafKind leafField e e',
      m = f.enter e (.opened kind field leafKind leafField t e') ∧ e.seeksName = false) ∨
    m = ⟨f.piped t, none⟩ := by
  cases hm with
  | functionName he | loopName he =>
    exact .inl ⟨f.kind, _, _, _, rfl, fun _ => by rw [he]; rfl⟩
  | functionOption he =>
    refine .inl ⟨f.kind, _, _, _, rfl, fun h => ?_⟩
    rw [he]
    exact h.resolve_left (by simp)
  | close => exact .inl ⟨_, _, _, _, rfl, by simp [Expect.seeksName]⟩
  | elseIf => exact .inl ⟨_, _, _, _, rfl, by simp [Expect.seeksName]⟩
  | begin | condition | conjoined | connected | joined =>
    obtain ⟨kind, leafKind, leafField, e', -, heq⟩ := construct_opened _ t _
    exact .inr (.inl ⟨_, _, _, _, _, _, by rw [heq], rfl⟩)
  | @clause _ _ c =>
    refine .inr (.inl ?_)
    cases c <;> exact ⟨_, _, _, _, _, _, rfl, rfl⟩
  | join | dangle | garble | stray | conditionJoin | staged =>
    exact .inr (.inl ⟨_, _, _, _, _, _, rfl, rfl⟩)
  | pipe => exact .inr (.inr rfl)
  | _ => exact .inl ⟨f.kind, _, _, _, rfl, by simp [Expect.seeksName]⟩

/-- A phrase behind what is there already, which is a name only if everything is a leaf. -/
lemma Headed.namesLead_add (h : f.Headed)
    (hname : p.part.field = some .name → f.expect.seeksName = true) :
    NamesLead (f.add p).parts := by
  rw [parts_add]
  refine List.pairwise_append.2 ⟨h.names, List.pairwise_singleton _ _, fun q hq p' hp' hf => ?_⟩
  rw [List.mem_singleton.1 hp'] at hf
  exact h.header (hname hf) q hq

lemma Headed.addInner (h : f.Headed) (hinner : inner.Headed) (hawaits : f.Awaits source inner) :
    (f.add inner.phrase).Headed where
  names := h.namesLead_add fun hf => absurd hf hawaits.field_ne_name
  header hseeks := by
    rw [show (f.add inner.phrase).expect = f.expect from rfl, hawaits.seeksName] at hseeks
    cases hseeks
  inside := List.forall_mem_cons.2 ⟨hinner.phrase, h.inside⟩

/-- A move keeps the names first, in the node and in a new one. -/
theorem Headed.move (h : f.Headed) (hm : f.Rule t m) :
    m.frame.Headed ∧ ∀ inner, m.inner? = some inner → inner.Headed := by
  obtain ⟨kind, leafKind, field, e, rfl, hheader⟩ |
    ⟨kind, field, leafKind, leafField, e, e', rfl, hseeks⟩ | rfl := hm.header
  · refine ⟨⟨h.namesLead_add (p := .leaf leafKind field t.span) (hheader <| .inl ·),
      fun hseeks => ?_, List.forall_mem_cons.2 ⟨.leaf, h.inside⟩⟩, fun inner hi => by cases hi⟩
    show ∀ p ∈ (f.add (.leaf leafKind field t.span)).parts, _
    rw [parts_add]
    exact forall_mem_concat (h.header (hheader (.inr hseeks))) rfl
  · refine ⟨⟨h.names, fun hs => ?_, h.inside⟩, fun inner hi => ?_⟩
    · rw [show (f.enter e _).frame.expect = e from rfl, hseeks] at hs
      cases hs
    · cases hi
      exact ⟨List.pairwise_singleton _ _, fun _ => List.forall_mem_singleton.2 rfl,
        List.forall_mem_singleton.2 .leaf⟩
  · -- behind the command that is piped stands only the bar
    have hcommand : (Phrase.node .command none f.phrases.reverse).Each fun _ => NamesLead := by
      cases h.phrase with
      | node hnode hchildren => exact .node hnode hchildren
    refine ⟨⟨?_, fun hs => ?_, ?_⟩, fun inner hi => by cases hi⟩
    · simp [NamesLead, piped, parts, Phrase.part]
    · cases hs
    · exact List.forall_mem_cons.2 ⟨.leaf, List.forall_mem_singleton.2 hcommand⟩

lemma Headed.isKept (source : Text) (gs : List Span) (ts : List Terminal) :
    IsKept source gs ts Headed where
  initial := ⟨.nil, fun hs => (by cases hs), List.forall_mem_nil _⟩
  add h hinner hawaits _ := h.addInner hinner hawaits
  move _ h _ hm := h.move hm

end Frame

theorem namesLead_of_mem_preorder {source : Text} {n : Node}
    (hn : n ∈ (rootOf source).preorder) : NamesLead n.parts := by
  obtain hnone | h := (Frame.Headed.isKept _ _ _).of_mem (fun _ h => h.phrase) hn
  · rw [Node.parts, hnone]
    exact .nil
  · exact h

end FishScript
