/-
# Structural findings

Three codes are about blocks and about source that fits nowhere. Of the rules only the one for the
balance of blocks reports them, and it comes first; so among the diagnostics of a tree they are
exactly what this rule finds at its nodes (`Tree.diagnose_structural`). At an error node of the
tree of a source it finds exactly one thing, which the shape of the node tells
(`rule_of_isError`), and elsewhere nothing.
-/
import Mathlib
import FishScript.Proofs.Grammar.Ends
import FishScript.Proofs.Grammar.OpenBlocks
import FishScript.Proofs.Tree.Sites
import FishScript.Rules.Pass

namespace FishScript

/-- The code is about blocks or about source that fits nowhere. -/
def Code.isStructural : Code → Bool
  | .missingEnd | .extraEnd | .syntaxError => true
  | _ => false

/-! ## What the rules report -/

/-- The families of rules, in the order of the thousands of their codes. -/
inductive Family
  /-- The balance of blocks. -/
  | blocks
  /-- Code that never runs. -/
  | reachability
  /-- The names of functions. -/
  | names
  /-- The flags of variables. -/
  | variables
deriving DecidableEq

/-- The family of rules that reports a code. -/
def Code.family : Code → Family
  | .missingEnd | .extraEnd | .syntaxError => .blocks
  | .unreachableCode => .reachability
  | .duplicateFunctionName | .missingAutoloadedFunctionName | .privateHelperFunction => .names
  | .universalVariable | .pathVariable | .pathFlag => .variables

lemma Code.isStructural_iff {code : Code} : code.isStructural = true ↔ code.family = .blocks := by
  cases code <;> simp [isStructural, family]

namespace Finding

/-- The finding is about blocks or about source that fits nowhere. -/
def isStructural (f : Finding) : Bool := f.code.isStructural

lemma isStructural_eq_false {f : Finding} {family : Family} (h : f.code.family = family)
    (hne : family ≠ .blocks) : f.isStructural = false := by
  rw [← Bool.not_eq_true, isStructural, Code.isStructural_iff, h]
  exact hne

end Finding

section Rules

variable {source : Text} {s : Site}

lemma Naming.family_of_mem_codes (d : Document) (seen : DefinedNames) (name : Text) :
    ∀ code ∈ Naming.codes d seen name, code.family = .names := by
  unfold Naming.codes
  refine List.forall_mem_append.2 ⟨?_, ?_⟩
  · split
    · exact List.forall_mem_singleton.2 rfl
    · exact List.forall_mem_nil _
  · split
    · exact List.forall_mem_singleton.2 rfl
    · split
      · exact List.forall_mem_nil _
      · exact List.forall_mem_singleton.2 rfl

lemma Naming.family_of_mem {d : Document} : ∀ (fs : List Naming.NamedFunction)
    (seen : DefinedNames), ∀ f ∈ Naming.findings source d seen fs, f.code.family = .names
  | [], seen, f, hf => by cases hf
  | g :: gs, seen, f, hf => by
    rcases List.mem_append.1 hf with hf | hf
    · obtain ⟨code, hcode, rfl⟩ := List.mem_map.1 hf
      exact family_of_mem_codes d seen _ code hcode
    · exact family_of_mem gs _ f hf

lemma Variables.rule_of_ne (h : s.node.kind ≠ .variableDefinition) :
    Variables.rule source s = [] := if_pos (by simpa using h)

lemma Variables.kind_of_mem {f : Finding} (hf : f ∈ Variables.rule source s) :
    s.node.kind = .variableDefinition := by
  by_contra hk
  rw [rule_of_ne hk] at hf
  cases hf

/-- What is found at a variable is about its flags, and is held by what holds the variable. -/
lemma Variables.family_parent_of_mem : ∀ f ∈ Variables.rule source s,
    f.code.family = .variables ∧ f.parent = s.parent := by
  intro f hf
  unfold Variables.rule at hf
  split at hf
  · cases hf
  · rcases List.mem_append.1 hf with hf | hf
    · split at hf
      · rw [List.mem_singleton.1 hf]
        exact ⟨rfl, rfl⟩
      · cases hf
    · split at hf <;> split at hf
      · cases hf
      · rw [List.mem_singleton.1 hf]
        exact ⟨rfl, rfl⟩
      · rw [List.mem_singleton.1 hf]
        exact ⟨rfl, rfl⟩
      · cases hf

lemma Variables.family_of_mem : ∀ f ∈ Variables.rule source s, f.code.family = .variables :=
  fun f hf => (family_parent_of_mem f hf).1

lemma Reachability.family_of_mem_afterReturn :
    ∀ f ∈ Reachability.afterReturn source s, f.code.family = .reachability := by
  intro f hf
  unfold Reachability.afterReturn at hf
  split at hf
  · rw [List.mem_singleton.1 hf]
    rfl
  · cases hf

lemma Reachability.family_of_mem_trailingChain :
    ∀ f ∈ Reachability.trailingChain source s, f.code.family = .reachability := by
  intro f hf
  unfold Reachability.trailingChain at hf
  split at hf
  · obtain ⟨n, -, rfl⟩ := List.mem_map.1 hf
    rfl
  · cases hf

lemma Balance.family_of_mem : ∀ f ∈ Balance.rule source s, f.code.family = .blocks := by
  intro f hf
  unfold Balance.rule at hf
  split at hf
  · cases hf
  · split at hf
    · rw [List.mem_singleton.1 hf]
      rfl
    · split at hf <;> rw [List.mem_singleton.1 hf] <;> rfl

lemma firstFindings_not_structural {rules : List Rule}
    (h : ∀ rule ∈ rules, ∀ f ∈ rule source s, f.isStructural = false) :
    ∀ f ∈ firstFindings rules source s, f.isStructural = false := by
  induction rules with
  | nil => exact fun f hf => by cases hf
  | cons rule rules ih =>
    obtain ⟨hrule, hrules⟩ := List.forall_mem_cons.1 h
    intro f hf
    rw [firstFindings] at hf
    split at hf
    · exact ih hrules f hf
    · exact hrule f hf

lemma filter_firstFindings :
    (firstFindings siteRules source s).filter Finding.isStructural = Balance.rule source s := by
  rw [siteRules, firstFindings]
  split
  case h_1 hnil =>
    have hother : ∀ f ∈ firstFindings
        [Variables.rule, Reachability.afterReturn, Reachability.trailingChain] source s,
        f.isStructural = false := by
      refine firstFindings_not_structural ?_
      simp only [List.forall_mem_cons]
      exact ⟨fun f hf => Finding.isStructural_eq_false (Variables.family_of_mem f hf) (by simp),
        fun f hf => Finding.isStructural_eq_false (Reachability.family_of_mem_afterReturn f hf)
          (by simp),
        fun f hf => Finding.isStructural_eq_false (Reachability.family_of_mem_trailingChain f hf)
          (by simp),
        List.forall_mem_nil _⟩
    rw [hnil, List.filter_eq_nil_iff]
    exact fun f hf => by simp [hother f hf]
  case h_2 =>
    exact List.filter_eq_self.2 fun f hf => Code.isStructural_iff.2 (Balance.family_of_mem f hf)

end Rules

namespace Tree

lemma diagnose_of_root {t : Tree} {root : Node} (hroot : t.root = .ok root) {document : Document}
    (hd : document.check = .ok ()) :
    t.diagnose document =
      .ok ((t.namingFindings root document ++ t.walkFindings root).map
        (·.diagnostic .standard t.source document)) := by
  simp only [diagnose, pass, hd, hroot]
  rfl

lemma diagnose_eq (source : Text) (root : Node) {document : Document}
    (hd : document.check = .ok ()) :
    (Tree.mk source [root]).diagnose document =
      .ok (((Tree.mk source [root]).namingFindings root document ++
        (Tree.mk source [root]).walkFindings root).map
          (·.diagnostic .standard source document)) := diagnose_of_root rfl hd

lemma namingFindings_eq_nil {root : Node} (h : ∀ n ∈ root.preorder, n.kind ≠ .functionDefinition)
    (t : Tree) (document : Document) : t.namingFindings root document = [] := by
  have hnone : root.preorder.filter (·.kind == .functionDefinition) = [] :=
    List.filter_eq_nil_iff.2 (by simpa using h)
  rw [namingFindings, Naming.namedFunctions, hnone]
  rfl

/-- The structural diagnostics of a tree are the findings of the rule for the balance of blocks,
in the order of the nodes. -/
theorem diagnose_structural (source : Text) (root : Node) {document : Document}
    (hd : document.check = .ok ()) :
    ∃ ds, (Tree.mk source [root]).diagnose document = .ok ds ∧
      ds.filter (·.code.isStructural) =
        ((root.sites none [] []).flatMap (Balance.rule source)).map
          (·.diagnostic .standard source document) := by
  refine ⟨_, diagnose_eq source root hd, ?_⟩
  have hnaming : ((Tree.mk source [root]).namingFindings root document).filter
      Finding.isStructural = [] :=
    List.filter_eq_nil_iff.2 fun f hf => by
      simp [Finding.isStructural_eq_false (Naming.family_of_mem _ _ f hf)]
  have hwalk : ((Tree.mk source [root]).walkFindings root).filter Finding.isStructural =
      (root.sites none [] []).flatMap (Balance.rule source) := by
    rw [walkFindings, List.filter_flatMap]
    exact List.flatMap_congr fun s _ => filter_firstFindings
  rw [List.filter_map]
  show (List.filter Finding.isStructural _).map _ = _
  rw [List.filter_append, hnaming, hwalk, List.nil_append]

end Tree

/-! ## Nodes of the tree of a source -/

/-- What is known of a node of the tree of a source. -/
structure Node.Sound (source : Text) (n : Node) : Prop where
  schema : Schema source (garbagePlaces source) n.kind n.parts
  ends : EndsPlaced source n.kind n.parts ∨ n.children = []
  keywords : ∀ c ∈ n.children, c.kind = .keyword → c.children = []

/-- Every node of the tree of some terminals has the shape of its kind, and is of the kind of a leaf
only if it is one. -/
lemma schema_of_mem_preorder {source : Text} {gs : List Span} {ts : List Terminal}
    (hts : ∀ t ∈ ts, t.Reads source ∧ t.Known gs) {m : Node}
    (hm : m ∈ ((parseTerminals ts).plant 0 0).preorder) :
    Schema source gs m.kind m.parts ∧
      ((m.kind.isLeaf = true ∧ m.children = []) ∨ EndsPlaced source m.kind m.parts) := by
  obtain ⟨children, heq, hfull, -⟩ := parseTerminals_leaves ts
  have hshaped := parseTerminals_shaped hts
  have hplaced := parseTerminals_endsPlaced hts
  rw [heq] at hshaped hplaced hm
  obtain _ | ⟨hschema, hshaped⟩ := hshaped
  obtain _ | ⟨hends, hplaced⟩ := hplaced
  rcases List.mem_cons.1 hm with rfl | hm
  · have hparts : ((Phrase.node .program none children).plant 0 0).parts =
        children.map Phrase.part := map_part_plantAll hfull
    change Schema source gs .program ((Phrase.node .program none children).plant 0 0).parts ∧
      (_ ∨ EndsPlaced source .program ((Phrase.node .program none children).plant 0 0).parts)
    rw [hparts]
    exact ⟨hschema, .inr hends⟩
  · exact ⟨schema_plantAll 1 0 hshaped hfull m hm, endsPlaced_plantAll 1 0 hplaced hfull m hm⟩

theorem sound_of_mem_preorder {source : Text} {n : Node} (hn : n ∈ (rootOf source).preorder) :
    n.Sound source := by
  have hknown : ∀ t ∈ limited source, t.Reads source ∧ t.Known (garbagePlaces source) :=
    fun t ht => known_of_mem_limited ht
  obtain ⟨hschema, hends⟩ := schema_of_mem_preorder hknown hn
  refine ⟨hschema, hends.symm.imp_right And.right, fun c hc hk => ?_⟩
  have hmem : c ∈ n.preorder := Node.mem_preorder_of_child hc c.mem_preorder_self
  obtain ⟨-, ⟨-, hchildless⟩ | hplaced⟩ :=
    schema_of_mem_preorder hknown (mem_preorder_trans hn hmem)
  · exact hchildless
  · have hinner := hplaced.inner
    rw [hk] at hinner
    cases hinner

lemma children_ne_nil_of_error {source : Text} {n : Node} (hn : n ∈ (rootOf source).preorder)
    (hk : n.kind = .error) : n.children ≠ [] := by
  obtain ⟨shape, hfits, -⟩ := (sound_of_mem_preorder hn).schema.wellShaped.error hk
  exact fun hnone => hfits.ne_nil (by rw [Node.parts, hnone]; rfl)

namespace Node

variable {source : Text} {n c : Node} {w : Text}

/-- A node and its part are the same keywords, if keywords have no children. -/
lemma isKeyword_part (h : c.kind = .keyword → c.children = []) (hw : w ≠ []) :
    c.isKeyword source w = c.part.isKeyword source w := by
  by_cases hk : c.kind = .keyword
  · have hpart : c.part = ⟨.keyword, c.field, some c.span⟩ := by
      rw [part, h hk, hk]
      rfl
    rw [Node.isKeyword, Part.isKeyword, hpart, hk, Node.text]
    simp only [beq_self_eq_true, Bool.true_and, Option.bind_some]
    cases c.span.text? source with
    | some v => simp
    | none => simpa using hw.symm
  · have hkind : (c.kind == NodeKind.keyword) = false := by simpa using hk
    rw [Node.isKeyword, Part.isKeyword, part, hkind, Bool.false_and, Bool.false_and]

lemma Sound.isKeyword_child (h : n.Sound source) (hc : c ∈ n.children) (hw : w ≠ []) :
    c.isKeyword source w = c.part.isKeyword source w :=
  isKeyword_part (h.keywords c hc) hw

/-- The node is the keyword that closes a block. -/
def isEnd (source : Text) (n : Node) : Bool := n.isKeyword source "end".toList

lemma isEnd_eq_false_of_kind (h : n.kind ≠ .keyword) : n.isEnd source = false := by
  simp [isEnd, Node.isKeyword, h]

lemma Sound.isEnd_child (h : n.Sound source) (hc : c ∈ n.children) :
    c.isEnd source = c.part.isEnd source :=
  h.isKeyword_child hc (by decide)

lemma exists_children {p : Part} {ps : List Part} (h : n.parts = p :: ps) :
    ∃ c cs, n.children = c :: cs ∧ c.part = p ∧ cs.map Node.part = ps :=
  List.map_eq_cons_iff.1 h

end Node

/-! ## Findings at error nodes -/

/-- What is wrong with an error node, and where this is reported. -/
inductive Explains (source : Text) (n : Node) : Code → Span → Prop
  /-- The node is a block without its `end`. -/
  | missingEnd {b : Block} (hb : b.Unclosed source n.parts) : Explains source n .missingEnd n.span
  /-- The node begins with an `end` that closes nothing, and has no other. -/
  | extraEnd {close : Node} {rest : List Node} (hn : n.children = close :: rest)
      (hc : close.isEnd source = true)
      (hrest : ∀ c ∈ rest, c.isEnd source = false) :
      Explains source n .extraEnd close.span
  /-- The node is neither. -/
  | syntaxError (hb : ∀ b : Block, ¬ b.Unclosed source n.parts)
      (he : ∀ c ∈ n.children, c.isEnd source = false) :
      Explains source n .syntaxError n.span

namespace Balance

variable {source : Text} {s : Site} {gs : List Span}

lemma not_unclosed {shape : ErrorShape} {ps : List Part} (h : shape.Fits source gs ps)
    (hs : shape ≠ .unclosed) (b : Block) : ¬ b.Unclosed source ps := by
  intro hb
  have hfits : ErrorShape.unclosed.Fits source gs ps := ⟨b, hb⟩
  exact hs (h.unique hfits)

lemma rule_of_no_keywords (he : s.node.kind = .error)
    (hk : ∀ c ∈ s.node.children, c.kind ≠ .keyword) :
    Balance.rule source s = [.here s .syntaxError] := by
  have hkeywords : s.node.keywords source = [] := by
    rw [Node.keywords, List.filter_eq_nil_iff.2 fun c hc => by simpa using hk c hc]
    rfl
  simp [rule, Node.isError, he, opener?, hkeywords, unmatchedEnd?]

lemma rule_of_unclosed (h : s.node.Sound source) (he : s.node.kind = .error) {b : Block}
    (hb : b.Unclosed source s.node.parts) : Balance.rule source s = [.here s .missingEnd] := by
  have hend := hb.isEnd
  obtain ⟨clauses, -, -, opener, body, hparts, hopener, -⟩ := hb
  obtain ⟨c, cs, hchildren, rfl, -⟩ := Node.exists_children hparts
  have hc : c ∈ s.node.children := by simp [hchildren]
  rw [← h.isKeyword_child hc (by cases b <;> decide), Node.isKeyword, Bool.and_eq_true,
    beq_iff_eq, beq_iff_eq] at hopener
  have hfirst : (opener? s.node source).isSome = true := by
    rw [opener?, Node.keywords, hchildren, List.filter_cons_of_pos (by simp [hopener.1]),
      List.map_cons, List.map_cons, hopener.2, List.find?_cons_of_pos (by cases b <;> rfl)]
    rfl
  have hlast : endsWithEnd s.node source = false := by
    rw [endsWithEnd_eq]
    cases hl : s.node.children.getLast? with
    | none => rfl
    | some l =>
      have hl' : l ∈ s.node.children := List.mem_of_getLast? hl
      exact (h.isEnd_child hl').trans (hend l.part (List.mem_map_of_mem hl'))
  simp [rule, Node.isError, he, hfirst, hlast]

/-- A closing word that closes nothing is reported if it is an `end`. -/
lemma rule_of_stray (h : s.node.Sound source) (he : s.node.kind = .error)
    (hfits : ErrorShape.stray.Fits source gs s.node.parts) :
    ∃ close args, s.node.children = close :: args ∧
      Balance.rule source s =
        if close.isEnd source then [.below s close .extraEnd]
        else [.here s .syntaxError] := by
  obtain ⟨w, keyword, args, hparts, hkeyword, -, hargs⟩ := hfits
  obtain ⟨c, cs, hchildren, rfl, rfl⟩ := Node.exists_children hparts
  have hc : c ∈ s.node.children := by simp [hchildren]
  rw [← h.isKeyword_child hc (by cases w <;> decide), Node.isKeyword, Bool.and_eq_true,
    beq_iff_eq, beq_iff_eq] at hkeyword
  have hkeywords : s.node.keywords source = [(c, w.word.toList)] := by
    have hrest : cs.filter (·.kind == .keyword) = [] := by
      rw [List.filter_eq_nil_iff]
      intro a ha
      have hne : a.kind ≠ .keyword := (hargs a.part (List.mem_map_of_mem ha)).kind_ne
      simpa using hne
    rw [Node.keywords, hchildren, List.filter_cons_of_pos (by simp [hkeyword.1]), hrest,
      List.map_singleton, hkeyword.2]
  refine ⟨c, cs, hchildren, ?_⟩
  rw [Node.isEnd, Node.isKeyword, hkeyword.1, hkeyword.2]
  have hnone : opener? s.node source = none := by
    rw [opener?, hkeywords]
    cases w <;> rfl
  have hunmatched : unmatchedEnd? 0 (s.node.keywords source) =
      if w.word.toList == "end".toList then some c else none := by
    rw [hkeywords]
    cases w <;> rfl
  rw [rule, if_neg (by simp [Node.isError, he]), hnone, hunmatched, beq_self_eq_true, Bool.true_and]
  cases w <;> rfl

lemma ne_keyword_of_shape (h : s.node.Sound source) {shape : ErrorShape}
    (hfits : shape.Fits source gs s.node.parts) (hs : shape = .connectors ∨ shape = .garbage) :
    ∀ c ∈ s.node.children, c.kind ≠ .keyword := by
  intro c hc hk
  have hleaf : c.part.leaf? ≠ none := by
    rw [Node.part, h.keywords c hc hk]
    simp
  have hkind : c.part.kind = .keyword := hk
  have hmem : c.part ∈ s.node.parts := List.mem_map_of_mem hc
  obtain rfl | rfl := hs
  · obtain ⟨operators, operand, hparts, -, hoperators, -, hoperand⟩ := hfits
    rw [hparts] at hmem
    rcases List.mem_append.1 hmem with hmem | hmem
    · obtain ⟨-, -, hoperator⟩ := hoperators _ hmem
      rw [hkind] at hoperator
      cases hoperator
    · exact hleaf (hoperand _ hmem).1
  · obtain ⟨first, words, -, -, hwords⟩ := hfits
    obtain ⟨-, -, hword⟩ := hwords _ hmem
    rw [hkind] at hword
    cases hword

/-- At an error node the rule finds one thing, which explains it. -/
theorem rule_of_isError (h : s.node.Sound source) (he : s.node.isError = true) :
    ∃ f, Balance.rule source s = [f] ∧ Explains source s.node f.code f.node.span ∧
      s.node.fault? source = some f.code := by
  have hkind : s.node.kind = .error := by simpa [Node.isError] using he
  obtain ⟨shape, hfits, -⟩ := h.schema.wellShaped.error hkind
  have hfault := fault?_of_error hfits
  rw [← hkind] at hfault
  change s.node.fault? source = _ at hfault
  cases shape with
  | unclosed =>
    obtain ⟨b, hb⟩ := hfits
    exact ⟨_, rule_of_unclosed h hkind hb, .missingEnd hb, hfault⟩
  | stray =>
    have hnone := not_unclosed hfits (by simp)
    obtain ⟨close, args, hchildren, hrule⟩ := rule_of_stray h hkind hfits
    have hclose : close ∈ s.node.children := by simp [hchildren]
    have hhead : s.node.parts.head?.any (·.isEnd source) =
        close.isEnd source := by
      rw [h.isEnd_child hclose, Node.parts, hchildren]
      rfl
    rw [if_neg (by simp), hhead] at hfault
    have hrest : ∀ c ∈ args, c.isEnd source = false := by
      -- behind the closing word only arguments follow
      obtain ⟨w, keyword, args', hparts, -, -, hargs⟩ := hfits
      rw [Node.parts, hchildren] at hparts
      obtain ⟨-, rfl⟩ := List.cons.inj hparts
      intro c hc
      exact Node.isEnd_eq_false_of_kind (hargs _ (List.mem_map_of_mem hc)).kind_ne
    cases hend : close.isEnd source with
    | true =>
      rw [if_pos hend] at hrule hfault
      exact ⟨_, hrule, .extraEnd hchildren hend hrest, hfault⟩
    | false =>
      rw [if_neg (Bool.not_eq_true _ ▸ hend)] at hrule hfault
      refine ⟨_, hrule, .syntaxError hnone ?_, hfault⟩
      rw [hchildren]
      exact List.forall_mem_cons.2 ⟨hend, hrest⟩
  | connectors | garbage =>
    have hk := ne_keyword_of_shape h hfits (by simp)
    have hnoEnd : s.node.parts.head?.any (·.isEnd source) = false := by
      cases hparts : s.node.parts with
      | nil => rfl
      | cons p ps =>
        obtain ⟨c, cs, hchildren, rfl, -⟩ := Node.exists_children hparts
        exact Part.isEnd_eq_false_of_kind (hk c (by simp [hchildren]))
    rw [if_neg (by simp), hnoEnd] at hfault
    refine ⟨_, rule_of_no_keywords hkind hk, ?_, hfault⟩
    exact .syntaxError (not_unclosed hfits (by simp)) fun c hc =>
      Node.isEnd_eq_false_of_kind (hk c hc)

lemma rule_of_not_isError (he : s.node.isError = false) : Balance.rule source s = [] := by
  simp [rule, he]

end Balance

end FishScript
