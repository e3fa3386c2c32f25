/-
# What a node begins with

A command begins with its name, a pipeline with its first command, and every other construct with a
keyword or a sign, and words have roles. Only the nodes for source that fits nowhere may begin with
something else and hold words without a role (`regular_of_mem_preorder`): the node that takes
garbage first takes nothing but words behind it, so it never becomes a block.
-/
import Mathlib
import FishScript.Proofs.Grammar.Keeping

namespace FishScript

/-- A construct may begin with the part: a command, a keyword, a sign, or a word with a role. -/
def Part.Begins (p : Part) : Prop :=
  p.leaf? = none ∧ p.kind = .command ∨
    p.leaf?.isSome ∧ (p.kind = .keyword ∨ p.kind = .operator ∨ p.field.isSome)

/-- Unless a node stands for source that fits nowhere, its first part is one with which a construct
may begin, except for the program, and words among its parts have roles. No node holds a program. -/
structure Regular (kind : NodeKind) (ps : List Part) : Prop where
  first : kind = .program ∨ kind = .error ∨ ∃ p ∈ ps.head?, p.Begins
  words : kind = .error ∨ ∀ p ∈ ps, ¬ p.IsWord
  inner : ∀ p ∈ ps, p.leaf? = none → p.kind ≠ .program

namespace Frame

variable {source : Text} {gs : List Span} {f inner : Frame} {t : Terminal} {m : Move}

/-- The open node begins as it should, and its words have roles; only one that takes garbage may
begin with garbage and hold further words. -/
structure Regular (f : Frame) : Prop where
  first : f.kind = .program ∨ f.kind = .error ∧ f.expect = .garbage ∨
    ∃ p ∈ f.parts.head?, p.Begins
  words : f.kind = .error ∧ f.expect = .garbage ∨ ∀ p ∈ f.parts, ¬ p.IsWord
  inner : ∀ p ∈ f.parts, p.leaf? = none → p.kind ≠ .program
  inside : ∀ p ∈ f.phrases, p.Each FishScript.Regular

lemma Regular.regular_parts (h : f.Regular) : FishScript.Regular f.kind f.parts :=
  ⟨h.first.imp_right fun h => h.imp_left And.left, h.words.imp_left And.left, h.inner⟩

lemma Regular.phrase (h : f.Regular) : f.phrase.Each FishScript.Regular :=
  .node h.regular_parts fun p hp => h.inside p (List.mem_reverse.1 hp)

/-- A node that takes garbage stays one for source that fits nowhere, the program stays the program,
a word that is taken has a role, and a new node begins with a keyword, a sign, a word with a role,
or garbage. -/
lemma Rule.begins (hm : f.Rule t m) (hr : f.Ready source gs t) :
    (∃ kind leafKind field e, m = { f with kind }.take leafKind field t e ∧
      (f.kind = .program → kind = .program) ∧
      (f.expect = .garbage → kind = .error ∧ e = .garbage) ∧
      (leafKind = .word → field.isSome ∨ f.expect = .garbage)) ∨
    (∃ kind field leafKind leafField e e',
      m = f.enter e (.opened kind field leafKind leafField t e') ∧ f.expect ≠ .garbage ∧
      ((leafKind = .keyword ∨ leafKind = .operator ∨ leafField.isSome) ∨
        kind = .error ∧ e' = .garbage)) ∨
    m = ⟨f.piped t, none⟩ ∧ f.kind = .command := by
  have hlist : ∀ {h j}, f.Lists t h j → f.expect ≠ .garbage := by
    intro h j hl he
    have hholder := Expect.holder?_of_listed? hl
    rw [he] at hholder
    cases hholder
  have hconstruct : ∀ field w, ∃ kind field' leafKind leafField e',
      construct field t w = .opened kind field' leafKind leafField t e' ∧
        ((leafKind = .keyword ∨ leafKind = .operator ∨ leafField.isSome) ∨
          kind = .error ∧ e' = .garbage) := by
    intro field w
    unfold construct
    split
    · exact ⟨_, _, _, _, _, rfl, .inl (.inl rfl)⟩
    · split
      · exact ⟨_, _, _, _, _, rfl, .inl (.inl rfl)⟩
      · split
        · exact ⟨_, _, _, _, _, rfl, .inl (.inl rfl)⟩
        · exact ⟨_, _, _, _, _, rfl, .inl (.inr (.inr rfl))⟩
  cases hm with
  | terminator hl | comment hl =>
    exact .inl ⟨f.kind, _, _, _, rfl, id, fun he => absurd he (hlist hl), nofun⟩
  | @close h j c b hl hs hrole =>
    obtain ⟨rfl, rfl⟩ := Holder.role_eq_closes hrole
    obtain ⟨clauses, hfits, -⟩ := hr
    obtain ⟨hkind, -⟩ := Expect.Fits.keeps hfits (Expect.holder?_of_listed? hl)
    refine .inl ⟨b.kind, _, _, _, rfl, fun hk => ?_, fun he => absurd he (hlist hl), nofun⟩
    rw [hkind] at hk
    cases hk
  | join hl | dangle hl =>
    exact .inr (.inl ⟨_, _, _, _, _, _, rfl, hlist hl, .inl (.inr (.inl rfl))⟩)
  | garble hl =>
    exact .inr (.inl ⟨_, _, _, _, _, _, rfl, hlist hl, .inr ⟨rfl, rfl⟩⟩)
  | stray hl => exact .inr (.inl ⟨_, _, _, _, _, _, rfl, hlist hl, .inl (.inl rfl)⟩)
  | @clause _ _ c hl =>
    refine .inr (.inl ?_)
    cases c <;> exact ⟨_, _, _, _, _, _, rfl, hlist hl, .inl (.inl rfl)⟩
  | begin hl =>
    obtain ⟨_, _, _, _, _, heq, hbegins⟩ := hconstruct none _
    exact .inr (.inl ⟨_, _, _, _, _, _, by rw [heq], hlist hl, hbegins⟩)
  | condition he | conjoined he | connected he | joined he =>
    obtain ⟨_, _, _, _, _, heq, hbegins⟩ := hconstruct _ _
    exact .inr (.inl ⟨_, _, _, _, _, _, by rw [heq], by simp [he], hbegins⟩)
  | conditionJoin he =>
    exact .inr (.inl ⟨_, _, _, _, _, _, rfl, by simp [he], .inl (.inr (.inl rfl))⟩)
  | staged he =>
    exact .inr (.inl ⟨_, _, _, _, _, _, rfl, by simp [he], .inl (.inr (.inr rfl))⟩)
  | elseIf he =>
    obtain ⟨-, hkind, -⟩ := hr.fits he (by simp)
    exact .inl ⟨_, _, _, _, rfl, by simp [hkind], by simp [he], nofun⟩
  | garbage he =>
    have hkind := (hr.fits he (by simp)).2.1
    exact .inl ⟨f.kind, _, _, _, rfl, id, fun _ => ⟨hkind, rfl⟩, fun _ => .inr he⟩
  | pipe he => exact .inr (.inr ⟨rfl, (hr.fits he (by simp)).2.1⟩)
  | bar he =>
    exact .inl ⟨f.kind, _, _, _, rfl, id, by obtain he | he := he <;> simp [he], nofun⟩
  | functionName he | functionOption he | loopName he | loopIn he | loopItem he | headerWord he
  | finalWord he | strayWord he | argument he | conjunction he | connector he | lineBreak he
  | lineComment he | stageBreak he =>
    exact .inl ⟨f.kind, _, _, _, rfl, id, by simp [he], by simp⟩

lemma exists_begins_add {p : Phrase} (h : ∃ p ∈ f.parts.head?, p.Begins) :
    ∃ q ∈ (f.add p).parts.head?, q.Begins := by
  obtain ⟨q, hq, hbegins⟩ := h
  refine ⟨q, ?_, hbegins⟩
  rw [parts_add, List.head?_append, hq]
  rfl

lemma forall_not_isWord_add {p : Phrase} (h : ∀ q ∈ f.parts, ¬ q.IsWord) (hp : ¬ p.part.IsWord) :
    ∀ q ∈ (f.add p).parts, ¬ q.IsWord := by
  rw [parts_add]
  exact forall_mem_concat h hp

lemma Regular.addInner (h : f.Regular) (hinner : inner.Regular) (hk : inner.kind ≠ .program) :
    (f.add inner.phrase).Regular where
  first := h.first.imp_right fun h => h.imp_right exists_begins_add
  words := h.words.imp_right fun h =>
    forall_not_isWord_add h fun hword => absurd hword.1 (by simp [part_phrase])
  inner := by
    rw [parts_add]
    exact forall_mem_concat h.inner fun _ => hk
  inside := List.forall_mem_cons.2 ⟨hinner.phrase, h.inside⟩

lemma Regular.take (h : f.Regular) {kind leafKind : NodeKind} {field : Option Field} {e : Expect}
    (hprogram : f.kind = .program → kind = .program)
    (hgarbage : f.expect = .garbage → kind = .error ∧ e = .garbage)
    (hword : leafKind = .word → field.isSome ∨ f.expect = .garbage) :
    ({ f with kind }.take leafKind field t e).frame.Regular := by
  refine ⟨?_, ?_, ?_, List.forall_mem_cons.2 ⟨.leaf, h.inside⟩⟩
  · obtain hk | ⟨-, he⟩ | hfirst := h.first
    · exact .inl (hprogram hk)
    · exact .inr (.inl (hgarbage he))
    · exact .inr (.inr (exists_begins_add (p := .leaf leafKind field t.span) hfirst))
  · by_cases he : f.expect = .garbage
    · exact .inl (hgarbage he)
    · have hwords := h.words.resolve_left fun h => he h.2
      refine .inr (forall_not_isWord_add hwords (p := .leaf leafKind field t.span) ?_)
      rintro ⟨-, hnone, hk⟩
      exact absurd ((hword hk).resolve_right he) (by simp [show field = none from hnone])
  · rw [take_parts]
    exact forall_mem_concat h.inner nofun

/-- A node in which another one begins stays regular, if it does not take garbage. -/
lemma Regular.enter (h : f.Regular) (hne : f.expect ≠ .garbage) (e : Expect) (inner : Frame) :
    (f.enter e inner).frame.Regular where
  first := h.first.imp_right fun h => .inr (h.resolve_left fun h => hne h.2)
  words := .inr (h.words.resolve_left fun h => hne h.2)
  inner := h.inner
  inside := h.inside

lemma regular_opened {kind leafKind : NodeKind} {field leafField : Option Field} {e : Expect}
    (h : (leafKind = .keyword ∨ leafKind = .operator ∨ leafField.isSome) ∨
      kind = .error ∧ e = .garbage) :
    (Frame.opened kind field leafKind leafField t e).Regular := by
  refine ⟨?_, ?_, List.forall_mem_singleton.2 nofun, List.forall_mem_singleton.2 .leaf⟩
  · exact .inr (h.symm.imp_right fun hleaf => ⟨_, rfl, .inr ⟨rfl, hleaf⟩⟩)
  · refine h.symm.imp_right fun hleaf => List.forall_mem_singleton.2 ?_
    rintro ⟨-, hnone, hk⟩
    have hnone : leafField = none := hnone
    have hk : leafKind = .word := hk
    simp [hnone, hk] at hleaf

lemma Regular.piped (h : f.Regular) (hk : f.kind = .command) : (f.piped t).Regular := by
  have hcommand : (Phrase.node .command none f.phrases.reverse).Each FishScript.Regular :=
    .node (hk ▸ h.regular_parts) fun p hp => h.inside p (List.mem_reverse.1 hp)
  refine ⟨.inr (.inr ⟨_, rfl, .inl ⟨rfl, rfl⟩⟩), .inr ?_, ?_,
    List.forall_mem_cons.2 ⟨.leaf, List.forall_mem_singleton.2 hcommand⟩⟩
  all_goals simp [Frame.piped, parts, Phrase.part, Part.IsWord]

theorem Regular.move (h : f.Regular) (hr : f.Ready source gs t) (hm : f.Rule t m) :
    m.frame.Regular ∧ ∀ inner, m.inner? = some inner → inner.Regular := by
  obtain ⟨kind, leafKind, field, e, rfl, hprogram, hgarbage, hword⟩ |
    ⟨kind, field, leafKind, leafField, e, e', rfl, hne, hbegins⟩ | ⟨rfl, hk⟩ := hm.begins hr
  · exact ⟨h.take hprogram hgarbage hword, fun inner hi => by cases hi⟩
  · refine ⟨h.enter hne e _, fun inner hi => ?_⟩
    cases hi
    exact regular_opened hbegins
  · exact ⟨h.piped hk, fun inner hi => by cases hi⟩

lemma Regular.isKept (source : Text) (gs : List Span) (ts : List Terminal) :
    IsKept source gs ts Regular where
  initial := ⟨.inl rfl, .inr (List.forall_mem_nil _), List.forall_mem_nil _, List.forall_mem_nil _⟩
  add h hinner _ hk := h.addInner hinner hk
  move _ h hr hm := h.move hr hm

end Frame

theorem regular_of_mem_preorder {source : Text} {n : Node} (hn : n ∈ (rootOf source).preorder)
    (hne : n.children ≠ []) : Regular n.kind n.parts :=
  ((Frame.Regular.isKept _ _ _).of_mem (fun _ h => h.phrase) hn).resolve_left hne

end FishScript
