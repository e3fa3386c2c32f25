/-
# Phrases that show outlines

Some phrases *show* a list of outlines over printed lexemes when the leaves of the phrases are the
lexemes, in their order, and what is named in the phrases is, without the texts, what the outlines
say. The texts then follow from the places: every node of the planted phrases spans exactly the
lexemes in it, so it has the text that these are printed as (`Shows.plant`).
-/
import Mathlib
import FishScript.Proofs.Program.Spelling
import FishScript.Proofs.Tree.Planting

namespace FishScript

open Program (Outline)

/-! ## Outlines of trees -/

mutual

/-- The outline of a node over a source. -/
def Node.outline (source : Text) : Node → Outline
  | ⟨_, kind, field, span, children⟩ =>
    .node kind field ((span.text? source).getD []) (outlinesOf source children)

/-- The outlines of the named nodes of a list. -/
def outlinesOf (source : Text) : List Node → List Outline
  | [] => []
  | n :: rest =>
    if n.isNamed then n.outline source :: outlinesOf source rest else outlinesOf source rest

end

/-- The nodes stand in their order between two offsets, and reach from the one to the other. -/
structure Covers (ns : List Node) (a b : Nat) : Prop where
  /-- They stand between the offsets. -/
  inside : ∀ n ∈ ns, a ≤ n.span.start ∧ n.span.stop ≤ b
  /-- The first starts at the one. -/
  first : ∀ n, ns.head? = some n → n.span.start = a
  /-- The last ends at the other. -/
  last : ∀ n, ns.getLast? = some n → n.span.stop = b

namespace Covers

lemma nil (a b : Nat) : Covers [] a b := ⟨by simp, by simp, by simp⟩

lemma cons {n : Node} {ns : List Node} {a m a' b : Nat} (hspan : n.span = ⟨a, m⟩)
    (hns : Covers ns a' b) (hle : a ≤ a') (hm : m ≤ b) (hlast : ns = [] → m = b) :
    Covers (n :: ns) a b := by
  refine ⟨?_, ?_, ?_⟩
  · intro k hk
    rcases List.mem_cons.1 hk with rfl | hk
    · rw [hspan]
      exact ⟨le_rfl, hm⟩
    · obtain ⟨hstart, hstop⟩ := hns.inside k hk
      exact ⟨hle.trans hstart, hstop⟩
  · intro k hk
    cases hk
    rw [hspan]
  · intro k hk
    rcases ns with _ | ⟨n', ns⟩
    · cases hk
      rw [List.getLast_singleton, hspan]
      exact hlast rfl
    · exact hns.last k (by rwa [List.getLast?_cons_cons] at hk)

/-- A node over nodes that cover what is between two offsets reaches from the one to the other. -/
lemma spanOf_reverse {ns : List Node} {a b : Nat} (h : Covers ns a b) (hne : ns ≠ [])
    (cursor : Nat) : OpenNode.spanOf cursor ns.reverse = ⟨a, b⟩ := by
  obtain ⟨first, hfirst⟩ := Option.ne_none_iff_exists'.1 (mt List.head?_eq_none_iff.1 hne)
  obtain ⟨last, hlast⟩ := Option.ne_none_iff_exists'.1 (mt List.getLast?_eq_none_iff.1 hne)
  have hstart := h.first first hfirst
  have hstop := h.last last hlast
  have hinner := h.inside first (List.mem_of_head? hfirst)
  have hinner' := h.inside last (List.mem_of_getLast? hlast)
  rw [OpenNode.spanOf, List.getLast?_reverse, List.head?_reverse, hfirst, hlast]
  simp only [Span.cover, Span.mk.injEq]
  omega

end Covers

namespace Program

/-! ## Places in a source -/

/-- The lexemes are printed in the source from the offset on. -/
def Written (source : Text) (offset : Nat) (ls : List Lexeme) : Prop :=
  ∃ before after : Text, before.byteLength = offset ∧ source = before ++ spell ls ++ after

namespace Written

variable {source : Text} {offset : Nat} {ls : List Lexeme}

lemma text? (h : Written source offset ls) :
    Span.text? ⟨offset, offset + (spell ls).byteLength⟩ source = some (spell ls) := by
  obtain ⟨before, after, rfl, rfl⟩ := h
  exact Text.slice?_append before (spell ls) after

/-- Both parts of printed lexemes are printed, the second behind the first. -/
lemma split {xs ys : List Placed} (h : Written source offset ls)
    (hplace : place offset ls = xs ++ ys) :
    ∃ ls₁ ls₂ offset₂, xs = place offset ls₁ ∧ ys = place offset₂ ls₂ ∧
      Written source offset ls₁ ∧ Written source offset₂ ls₂ ∧ offset ≤ offset₂ ∧
      offset + (spell ls₁).byteLength ≤ offset + (spell ls).byteLength ∧
      offset₂ + (spell ls₂).byteLength = offset + (spell ls).byteLength ∧
      (ys = [] → offset + (spell ls₁).byteLength = offset + (spell ls).byteLength) := by
  obtain ⟨before, after, rfl, rfl⟩ := h
  obtain ⟨ls₁, ls₂, between, rfl, rfl, hspell, hlast⟩ := place_eq_append hplace
  have hlength := congrArg Text.byteLength hspell
  simp only [Text.byteLength_append] at hlength
  refine ⟨ls₁, ls₂, _, rfl, rfl, ⟨before, between ++ spell ls₂ ++ after, rfl, ?_⟩,
    ⟨before ++ spell ls₁ ++ between, after, ?_, ?_⟩, ?_, ?_, ?_, ?_⟩
  · rw [hspell]
    simp only [List.append_assoc]
  · simp only [Text.byteLength_append, Nat.add_assoc]
  · rw [hspell]
    simp only [List.append_assoc]
  · omega
  · omega
  · rw [Text.byteLength_append]
    omega
  · intro hys
    have hls : ls₂ = [] := by
      cases ls₂ with
      | nil => rfl
      | cons l ls₂ => cases hys
    rw [hspell, hls, hlast hls]
    simp [spell]

/-- The first of printed lexemes spans its text, and the others are printed behind it. -/
lemma uncons {x : Placed} {xs : List Placed} (h : Written source offset ls)
    (hplace : x :: xs = place offset ls) :
    ∃ m ls₂ offset₂, x.span = ⟨offset, m⟩ ∧ x.span.text? source = some x.lexeme.text ∧
      xs = place offset₂ ls₂ ∧ Written source offset₂ ls₂ ∧ offset ≤ offset₂ ∧
      m ≤ offset + (spell ls).byteLength ∧
      offset₂ + (spell ls₂).byteLength = offset + (spell ls).byteLength ∧
      (xs = [] → m = offset + (spell ls).byteLength) := by
  have hsplit : place offset ls = [x] ++ xs := hplace.symm
  obtain ⟨ls₁, ls₂, offset₂, hx, hxs, hwritten₁, hwritten₂, hle, hm, hb, hlast⟩ := h.split hsplit
  obtain ⟨hspan, htext⟩ : x.span = ⟨offset, offset + (spell ls₁).byteLength⟩ ∧
      spell ls₁ = x.lexeme.text := by
    rcases ls₁ with _ | ⟨l, _ | ⟨l', ls₁⟩⟩
    · cases hx
    · obtain rfl := List.head_eq_of_cons_eq hx
      simp [spell, gap]
    · cases hx
  refine ⟨_, ls₂, offset₂, hspan, ?_, hxs, hwritten₂, hle, hm, hb, hlast⟩
  rw [hspan, hwritten₁.text?, htext]

lemma split_newline {rest : List Lexeme} (h : Written source offset (ls ++ .newline :: rest)) :
    Written source offset ls ∧ Written source (offset + (spell ls).byteLength + 1) rest := by
  obtain ⟨before, after, rfl, rfl⟩ := h
  rw [spell_append_newline]
  refine ⟨⟨before, '\n' :: spell rest ++ after, rfl, ?_⟩,
    ⟨before ++ spell ls ++ ['\n'], after, ?_, ?_⟩⟩
  · simp only [List.append_assoc]
  · simp only [Text.byteLength_append]
    rfl
  · simp

end Written

/-! ## Phrases -/

/-- What is named in the phrases, of which the lexemes are the leaves, is what the outlines
say. -/
inductive Shows : List Phrase → List Placed → List Outline → Prop
  /-- No phrases. -/
  | nil : Shows [] [] []
  /-- A leaf without a name. -/
  | mark {kind : NodeKind} {field : Option Field} {x : Placed} {ps : List Phrase}
      {xs : List Placed} {os : List Outline} (hkind : kind.isNamed = false)
      (hrest : Shows ps xs os) : Shows (.leaf kind field x.span :: ps) (x :: xs) os
  /-- A leaf with a name. -/
  | word {kind : NodeKind} {field : Option Field} {x : Placed} {ps : List Phrase}
      {xs : List Placed} {os : List Outline} (hkind : kind.isNamed = true) (herror : kind ≠ .error)
      (hrest : Shows ps xs os) :
      Shows (.leaf kind field x.span :: ps) (x :: xs) (.node kind field x.lexeme.text [] :: os)
  /-- A node. -/
  | node {kind : NodeKind} {field : Option Field} {children ps : List Phrase}
      {xs ys : List Placed} {os os' : List Outline} (hkind : kind.isNamed = true)
      (herror : kind ≠ .error) (hchildren : Shows children xs os) (hne : children ≠ [])
      (hrest : Shows ps ys os') :
      Shows (.node kind field children :: ps) (xs ++ ys)
        (.node kind field (spell (xs.map Placed.lexeme)) os :: os')

namespace Shows

variable {ps qs : List Phrase} {xs ys : List Placed} {os os' : List Outline}

lemma append (h : Shows ps xs os) (h' : Shows qs ys os') :
    Shows (ps ++ qs) (xs ++ ys) (os ++ os') := by
  induction h with
  | nil => exact h'
  | mark hkind hrest ih => exact .mark hkind ih
  | word hkind herror hrest ih => exact .word hkind herror ih
  | node hkind herror hchildren hne hrest ihc ih =>
    rw [List.append_assoc]
    exact .node hkind herror hchildren hne ih

/-- One node, over lexemes that are printed as its text. -/
lemma single {kind : NodeKind} {field : Option Field} {children : List Phrase} {ls : List Lexeme}
    (hxs : xs.map Placed.lexeme = ls) (hkind : kind.isNamed = true) (herror : kind ≠ .error)
    (hchildren : Shows children xs os) (hne : children ≠ []) :
    Shows [.node kind field children] xs [.node kind field (spell ls) os] := by
  have hnode : Shows [.node kind field children] (xs ++ [])
      [.node kind field (spell (xs.map Placed.lexeme)) os] :=
    .node hkind herror hchildren hne .nil
  rwa [List.append_nil, hxs] at hnode

lemma lexemes_eq_nil (h : Shows ps xs os) {id cursor : Nat} (hps : plantAll id cursor ps = []) :
    xs = [] := by
  cases h with
  | nil => rfl
  | mark | word | node => cases hps

/-- Where the lexemes are printed, the planted phrases have these outlines, none of them is an
error, and they span what is printed. -/
theorem plant {source : Text} (h : Shows ps xs os) : ∀ {offset : Nat} {ls : List Lexeme},
    xs = place offset ls → Written source offset ls → ∀ id cursor : Nat,
      outlinesOf source (plantAll id cursor ps) = os ∧
      (∀ n ∈ preorderAll (plantAll id cursor ps), n.kind ≠ .error) ∧
      Covers (plantAll id cursor ps) offset (offset + (spell ls).byteLength) := by
  induction h with
  | nil => exact fun _ _ _ _ => ⟨rfl, by simp [plantAll, preorderAll], .nil _ _⟩
  | @mark kind field x ps xs os hkind hrest ih =>
    intro offset ls hplace hwritten id cursor
    obtain ⟨m, ls₂, offset₂, hspan, hread, hxs, hwritten₂, hle, hm, hb, hlast⟩ :=
      hwritten.uncons hplace
    obtain ⟨houtlines, herrors, hcovers⟩ := ih hxs hwritten₂ (id + 1) (max cursor x.span.stop)
    rw [hb] at hcovers
    refine ⟨?_, ?_, .cons hspan hcovers hle hm fun hns => hlast (hrest.lexemes_eq_nil hns)⟩
    · simpa [plantAll, Phrase.plant, Phrase.size, Phrase.reach, outlinesOf, Node.isNamed, hkind]
        using houtlines
    · intro n hn
      rcases List.mem_cons.1 hn with rfl | hn
      · rintro rfl
        cases hkind
      · exact herrors n hn
  | @word kind field x ps xs os hkind herror hrest ih =>
    intro offset ls hplace hwritten id cursor
    obtain ⟨m, ls₂, offset₂, hspan, hread, hxs, hwritten₂, hle, hm, hb, hlast⟩ :=
      hwritten.uncons hplace
    obtain ⟨houtlines, herrors, hcovers⟩ := ih hxs hwritten₂ (id + 1) (max cursor x.span.stop)
    rw [hb] at hcovers
    refine ⟨?_, ?_, .cons hspan hcovers hle hm fun hns => hlast (hrest.lexemes_eq_nil hns)⟩
    · simpa [plantAll, Phrase.plant, Phrase.size, Phrase.reach, outlinesOf, Node.isNamed,
        Node.outline, hkind, hread] using houtlines
    · intro n hn
      rcases List.mem_cons.1 hn with rfl | hn
      · exact herror
      · exact herrors n hn
  | @node kind field children ps xs ys os os' hkind herror hchildren hne hrest ihc ih =>
    intro offset ls hplace hwritten id cursor
    obtain ⟨ls₁, ls₂, offset₂, hxs, hys, hwritten₁, hwritten₂, hle, hm, hb, hlast⟩ :=
      hwritten.split hplace.symm
    obtain ⟨hbelow, hbelowErrors, hbelowCovers⟩ := ihc hxs hwritten₁ (id + 1) cursor
    obtain ⟨houtlines, herrors, hcovers⟩ := ih hys hwritten₂
      (id + (Phrase.node kind field children).size)
      ((Phrase.node kind field children).reach cursor)
    -- a node spans what is printed of its children, so its text is that of their lexemes
    have hspan := hbelowCovers.spanOf_reverse
      (by cases children with | nil => exact absurd rfl hne | cons p ps => simp [plantAll])
      (reachOfAll cursor children)
    rw [hb] at hcovers
    refine ⟨?_, ?_, .cons (by simpa [Phrase.plant] using hspan) hcovers hle hm
      fun hns => hlast (hrest.lexemes_eq_nil hns)⟩
    · have htext : xs.map Placed.lexeme = ls₁ := by rw [hxs, map_lexeme_place]
      simp only [plantAll, Phrase.plant, outlinesOf, Node.isNamed, hkind, if_true, Node.outline,
        hspan, hwritten₁.text?, Option.getD_some, hbelow, houtlines, htext]
    · intro n hn
      simp only [plantAll, preorderAll, Phrase.plant, Node.preorder, List.cons_append,
        List.mem_cons, List.mem_append] at hn
      rcases hn with rfl | hn | hn
      · exact herror
      · exact hbelowErrors n hn
      · exact herrors n hn

end Shows

/-! ## Kinds -/

mutual

/-- The kinds in an outline. -/
def Outline.kinds : Outline → List NodeKind
  | .node kind _ _ children => kind :: kindsOf children

/-- The kinds in some outlines. -/
def kindsOf : List Outline → List NodeKind
  | [] => []
  | o :: rest => o.kinds ++ kindsOf rest

end

lemma kindsOf_append (os os' : List Outline) : kindsOf (os ++ os') = kindsOf os ++ kindsOf os' := by
  induction os with
  | nil => rfl
  | cons o os ih => rw [List.cons_append, kindsOf, kindsOf, ih, List.append_assoc]

/-- What is named in the planted phrases has a kind that the outlines say. -/
theorem Shows.kind_mem {ps : List Phrase} {xs : List Placed} {os : List Outline}
    (h : Shows ps xs os) (id cursor : Nat) : ∀ n ∈ preorderAll (plantAll id cursor ps),
      n.isNamed = true → n.kind ∈ kindsOf os := by
  induction h generalizing id cursor with
  | nil => exact fun n hn => by cases hn
  | mark hkind hrest ih =>
    intro n hn hnamed
    rcases List.mem_cons.1 hn with rfl | hn
    · rw [Node.isNamed, hkind] at hnamed
      cases hnamed
    · exact ih _ _ n hn hnamed
  | word hkind herror hrest ih =>
    intro n hn hnamed
    rcases List.mem_cons.1 hn with rfl | hn
    · exact List.mem_cons_self
    · exact List.mem_cons_of_mem _ (ih _ _ n hn hnamed)
  | node hkind herror hchildren hne hrest ihc ih =>
    intro n hn hnamed
    rcases List.mem_append.1 hn with hn | hn
    · rcases List.mem_cons.1 hn with rfl | hn
      · exact List.mem_cons_self
      · exact List.mem_append_left _ (List.mem_cons_of_mem _ (ihc _ _ n hn hnamed))
    · exact List.mem_append_right _ (ih _ _ n hn hnamed)

end Program

end FishScript
