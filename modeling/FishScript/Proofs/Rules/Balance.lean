/-
# The finding at an error node

The rule for the balance of blocks counts, along the keywords directly below a node, how many blocks
are open. It stops at the first `end` for which none is open: there the `end`s outnumber the words
that open a block for the first time (`unmatchedEnd?_eq_some`), and where it never stops they never
do (`unmatchedEnd?_eq_none`). Together with the last child this decides which one finding is made
at an error node, in any tree that calls of the builder describe (`rule_build`).
-/
import Mathlib
import FishScript.Proofs.Rules.Structure
import FishScript.Proofs.Tree.Links
import FishScript.Proofs.Tree.Numbering

namespace FishScript

namespace Node

/-- The keywords directly below a node. -/
def keywordChildren (n : Node) : List Node := n.children.filter (·.kind = .keyword)

/-- The node is a keyword that opens a block. -/
def isOpener (source : Text) (n : Node) : Bool :=
  Block.all.any fun b => n.isKeyword source b.opener.toList

variable {source : Text} {n c : Node}

lemma mem_keywordChildren : c ∈ n.keywordChildren ↔ c ∈ n.children ∧ c.kind = .keyword := by
  simp [keywordChildren]

lemma kind_of_isOpener (h : n.isOpener source = true) : n.kind = .keyword := by
  obtain ⟨b, -, hb⟩ := List.any_eq_true.1 h
  exact eq_of_beq (Bool.and_eq_true_iff.1 hb).1

lemma isOpener_eq (hk : n.kind = .keyword) :
    n.isOpener source = (Block.ofOpener? (n.text source)).isSome := by
  rw [Bool.eq_iff_iff, isOpener, List.any_eq_true, Block.ofOpener?, List.find?_isSome]
  refine exists_congr fun b => and_congr_right fun _ => ?_
  rw [isKeyword, hk, beq_self_eq_true, Bool.true_and, beq_iff_eq, beq_iff_eq, eq_comm]

lemma isEnd_eq (hk : n.kind = .keyword) : n.isEnd source = (n.text source == "end".toList) := by
  rw [isEnd, isKeyword, hk, beq_self_eq_true, Bool.true_and]

lemma isEnd_eq_false_of_isOpener (h : n.isOpener source = true) : n.isEnd source = false := by
  obtain ⟨b, -, hb⟩ := List.any_eq_true.1 h
  rw [isEnd, isKeyword, eq_of_beq (Bool.and_eq_true_iff.1 hb).2, Bool.and_eq_false_iff]
  right
  cases b <;> rfl

end Node

namespace Balance

/-- The number of nodes that open a block. -/
def openers (source : Text) (ks : List Node) : Nat := ks.countP (·.isOpener source)

/-- The number of `end`s. -/
def ends (source : Text) (ks : List Node) : Nat := ks.countP (·.isEnd source)

/-- Among the nodes there are more `end`s than nodes that open a block. -/
def Overclosed (source : Text) (ks : List Node) : Prop := openers source ks < ends source ks

/-- The node is the last of the shortest list of keywords with more `end`s, at the start of a longer
one. -/
def FirstExtra (source : Text) (ks : List Node) (c : Node) : Prop :=
  ∃ p, p ++ [c] <+: ks ∧ Overclosed source (p ++ [c]) ∧
    ∀ q, q <+: ks → Overclosed source q → p ++ [c] <+: q

/-- A node below opens a block, and the last child is no `end`. -/
def LeftOpen (source : Text) (n : Node) : Prop :=
  (∃ c ∈ n.children, c.isOpener source = true) ∧
    ∀ c, n.children.getLast? = some c → c.isEnd source = false

/-! ## Counting open blocks -/

section Count

variable {source : Text} {k c : Node} {ks : List Node} {depth : Nat}

lemma openers_cons (k : Node) (ks : List Node) :
    openers source (k :: ks) = openers source [k] + openers source ks := by
  rw [openers, ← List.singleton_append, List.countP_append]
  rfl

lemma ends_cons (k : Node) (ks : List Node) :
    ends source (k :: ks) = ends source [k] + ends source ks := by
  rw [ends, ← List.singleton_append, List.countP_append]
  rfl

/-- The keywords as the rule reads them, each with its text. -/
abbrev read (source : Text) (ks : List Node) : List (Node × Text) :=
  ks.map fun c => (c, c.text source)

lemma keywords_eq (n : Node) (source : Text) :
    n.keywords source = read source n.keywordChildren := by
  rw [Node.keywords, Node.keywordChildren]
  rfl

/-- A keyword changes the number of open blocks, unless it is an `end` and none is open. -/
lemma unmatchedEnd?_cons (hk : k.kind = .keyword) (ks : List (Node × Text)) (depth : Nat) :
    unmatchedEnd? depth ((k, k.text source) :: ks) =
      if depth + openers source [k] < ends source [k] then some k
      else unmatchedEnd? (depth + openers source [k] - ends source [k]) ks := by
  simp only [unmatchedEnd?, openers, ends, List.countP_singleton]
  rw [← Node.isOpener_eq hk, ← Node.isEnd_eq hk]
  cases hopener : k.isOpener source with
  | true => simp [Node.isEnd_eq_false_of_isOpener hopener]
  | false =>
    cases hend : k.isEnd source with
    | true => cases depth <;> simp
    | false => simp

lemma unmatchedEnd?_eq_none (hks : ∀ c ∈ ks, c.kind = .keyword)
    (h : unmatchedEnd? depth (read source ks) = none) {p : List Node} (hp : p <+: ks) :
    ends source p ≤ depth + openers source p := by
  induction ks generalizing depth p with
  | nil =>
    rw [List.prefix_nil.1 hp]
    exact Nat.zero_le _
  | cons k ks ih =>
    obtain ⟨hk, hks⟩ := List.forall_mem_cons.1 hks
    rw [read, List.map_cons, unmatchedEnd?_cons hk] at h
    split at h
    · cases h
    · obtain rfl | ⟨p, rfl, hp'⟩ := List.prefix_cons_iff.1 hp
      · exact Nat.zero_le _
      · have hrest := ih hks h hp'
        rw [openers_cons, ends_cons]
        omega

/-- An `end` that is left over is the last of the shortest list of keywords in which the `end`s
outnumber the blocks that are open. -/
lemma unmatchedEnd?_eq_some (hks : ∀ c ∈ ks, c.kind = .keyword)
    (h : unmatchedEnd? depth (read source ks) = some c) :
    ∃ p, p ++ [c] <+: ks ∧ depth + openers source (p ++ [c]) < ends source (p ++ [c]) ∧
      ∀ q, q <+: p → ends source q ≤ depth + openers source q := by
  induction ks generalizing depth with
  | nil => cases h
  | cons k ks ih =>
    obtain ⟨hk, hks⟩ := List.forall_mem_cons.1 hks
    rw [read, List.map_cons, unmatchedEnd?_cons hk] at h
    split at h
    case isTrue hlt =>
      obtain rfl := Option.some_inj.1 h
      refine ⟨[], List.prefix_append [k] ks, hlt, fun q hq => ?_⟩
      rw [List.prefix_nil.1 hq]
      exact Nat.zero_le _
    case isFalse hle =>
      obtain ⟨p, hp, hover, hfirst⟩ := ih hks h
      refine ⟨k :: p, List.prefix_cons_inj k |>.2 hp, ?_, fun q hq => ?_⟩
      · rw [List.cons_append, openers_cons, ends_cons]
        omega
      · obtain rfl | ⟨q, rfl, hq'⟩ := List.prefix_cons_iff.1 hq
        · exact Nat.zero_le _
        · have hrest := hfirst q hq'
          rw [openers_cons, ends_cons]
          omega

lemma firstExtra_of_unmatchedEnd? (hks : ∀ c ∈ ks, c.kind = .keyword)
    (h : unmatchedEnd? 0 (read source ks) = some c) : FirstExtra source ks c := by
  obtain ⟨p, hp, hover, hfirst⟩ := unmatchedEnd?_eq_some hks h
  rw [Nat.zero_add] at hover
  refine ⟨p, hp, hover, fun q hq hq' => ?_⟩
  obtain hpq | hqp := List.prefix_or_prefix_of_prefix hp hq
  · exact hpq
  · obtain rfl | hqp := List.prefix_concat_iff.1 hqp
    · exact List.prefix_rfl
    · have hle := hfirst q hqp
      rw [Overclosed] at hq'
      omega

end Count

/-! ## The finding -/

/-- The one finding at an error node: the node itself as a block without its `end`, or else the
`end` at which the `end`s first outnumber the words that open a block, or else the node itself. -/
structure Verdict (source : Text) (s : Site) : Prop where
  /-- There is exactly one finding. -/
  single : ∃ f, rule source s = [f]
  /-- The node is a block without its `end`. -/
  missingEnd : rule source s = [.here s .missingEnd] ↔ LeftOpen source s.node
  /-- Somewhere in the node the `end`s outnumber the words that open a block. -/
  extraEnd : (∃ c, rule source s = [.below s c .extraEnd]) ↔
    ¬ LeftOpen source s.node ∧ ∃ ks, ks <+: s.node.keywordChildren ∧ Overclosed source ks
  /-- The blame is on the `end` at which they do so for the first time. -/
  anchor : ∀ c, rule source s = [.below s c .extraEnd] →
    FirstExtra source s.node.keywordChildren c
  /-- Nothing is wrong with the blocks. -/
  syntaxError : rule source s = [.here s .syntaxError] ↔
    ¬ LeftOpen source s.node ∧ ∀ ks, ks <+: s.node.keywordChildren → ¬ Overclosed source ks

section Rule

variable {source : Text} {s : Site}

lemma isSome_opener? (n : Node) :
    (opener? n source).isSome = true ↔ ∃ c ∈ n.children, c.isOpener source = true := by
  rw [opener?, keywords_eq, read, List.map_map, List.find?_isSome]
  constructor
  · rintro ⟨w, hw, hopener⟩
    obtain ⟨c, hc, rfl⟩ := List.mem_map.1 hw
    obtain ⟨hc, hk⟩ := Node.mem_keywordChildren.1 hc
    exact ⟨c, hc, (Node.isOpener_eq hk).trans hopener⟩
  · rintro ⟨c, hc, hopener⟩
    have hk := Node.kind_of_isOpener hopener
    exact ⟨c.text source, List.mem_map.2 ⟨c, Node.mem_keywordChildren.2 ⟨hc, hk⟩, rfl⟩,
      (Node.isOpener_eq hk).symm.trans hopener⟩

lemma leftOpen_iff (n : Node) :
    LeftOpen source n ↔ ((opener? n source).isSome && !endsWithEnd n source) = true := by
  rw [LeftOpen, Bool.and_eq_true, isSome_opener?, endsWithEnd_eq]
  refine and_congr_right fun _ => ?_
  cases n.children.getLast? with
  | none => simp
  | some c => simp [Node.isEnd]

lemma rule_of_leftOpen (he : s.node.kind = .error) (h : LeftOpen source s.node) :
    rule source s = [.here s .missingEnd] := by
  rw [rule, if_neg (by simp [Node.isError, he]), if_pos ((leftOpen_iff _).1 h)]

lemma rule_of_not_leftOpen (he : s.node.kind = .error) (h : ¬ LeftOpen source s.node) :
    (∃ c, rule source s = [.below s c .extraEnd] ∧ FirstExtra source s.node.keywordChildren c) ∨
      rule source s = [.here s .syntaxError] ∧
        ∀ ks, ks <+: s.node.keywordChildren → ¬ Overclosed source ks := by
  have hkeywords : ∀ c ∈ s.node.keywordChildren, c.kind = .keyword := fun c hc =>
    (Node.mem_keywordChildren.1 hc).2
  rw [rule, if_neg (by simp [Node.isError, he]), if_neg (mt (leftOpen_iff _).2 h), keywords_eq]
  cases hextra : unmatchedEnd? 0 (read source s.node.keywordChildren) with
  | some c => exact .inl ⟨c, rfl, firstExtra_of_unmatchedEnd? hkeywords hextra⟩
  | none =>
    refine .inr ⟨rfl, fun ks hks => ?_⟩
    have hle := unmatchedEnd?_eq_none hkeywords hextra hks
    rw [Overclosed]
    omega

/-- At an error node the last child and the keywords below it decide. -/
lemma verdict_of_error (he : s.node.kind = .error) : Verdict source s := by
  by_cases hopen : LeftOpen source s.node
  · have hrule := rule_of_leftOpen he hopen
    constructor <;> simp [hrule, hopen, Finding.here, Finding.below]
  obtain ⟨c, hrule, p, hp, hover, hfirst⟩ | ⟨hrule, hnever⟩ := rule_of_not_leftOpen he hopen
  · have hsome : ∃ ks, ks <+: s.node.keywordChildren ∧ Overclosed source ks := ⟨_, hp, hover⟩
    refine ⟨⟨_, hrule⟩, ?_, iff_of_true ⟨c, hrule⟩ ⟨hopen, hsome⟩, ?_, ?_⟩
    · simp [hrule, hopen, Finding.here, Finding.below]
    · intro c' hc'
      obtain rfl : c = c' := by simpa [hrule, Finding.below] using hc'
      exact ⟨p, hp, hover, hfirst⟩
    · refine iff_of_false (by simp [hrule, Finding.here, Finding.below]) fun h => ?_
      exact h.2 _ hp hover
  · have hnone : ¬ ∃ ks, ks <+: s.node.keywordChildren ∧ Overclosed source ks := fun ⟨ks, hks, h⟩ =>
      hnever ks hks h
    refine ⟨⟨_, hrule⟩, ?_, ?_, ?_, iff_of_true hrule ⟨hopen, hnever⟩⟩
    · simp [hrule, hopen, Finding.here]
    · exact iff_of_false (by simp [hrule, Finding.here, Finding.below]) fun h => hnone h.2
    · simp [hrule, Finding.here, Finding.below]

lemma node_eq_or_mem_children {f : Finding} (hf : f ∈ rule source s) :
    f.node = s.node ∨ f.node ∈ s.node.children := by
  by_cases he : s.node.kind = .error
  · by_cases hopen : LeftOpen source s.node
    · rw [rule_of_leftOpen he hopen, List.mem_singleton] at hf
      exact .inl (by rw [hf]; rfl)
    · obtain ⟨c, hrule, p, hp, -⟩ | ⟨hrule, -⟩ := rule_of_not_leftOpen he hopen
      · rw [hrule, List.mem_singleton] at hf
        have hc : c ∈ s.node.keywordChildren := hp.subset (by simp)
        exact .inr (by rw [hf]; exact (Node.mem_keywordChildren.1 hc).1)
      · rw [hrule, List.mem_singleton] at hf
        exact .inl (by rw [hf]; rfl)
  · rw [rule_of_not_isError (by simpa [Node.isError] using he)] at hf
    cases hf

end Rule

/-- In the tree that calls of the builder describe, the rule makes exactly one finding at each error
node, about a node of the tree, and at every other node none. -/
theorem rule_build {source : Text} {calls : List BuildCall} {t : Tree}
    (h : Tree.build source calls = .ok t) :
    t.allSites.map Site.node = t.nodes ∧ ∀ s ∈ t.allSites,
      (s.node.kind = .error → Verdict source s) ∧
      (s.node.kind ≠ .error → rule source s = []) ∧
      ∀ f ∈ rule source s, t.node f.node.id = .ok f.node := by
  have hnumbered : t.Numbered := map_id_nodes h
  refine ⟨t.map_node_allSites, fun s hs => ⟨verdict_of_error, fun he => ?_, fun f hf => ?_⟩⟩
  · exact rule_of_not_isError (by simpa [Node.isError] using he)
  · obtain hnode | hchild := node_eq_or_mem_children hf
    · rw [hnode]
      exact hnumbered.node_eq (Tree.node_mem_nodes hs)
    · obtain ⟨before, after, hchildren⟩ := List.append_of_mem hchild
      have hsite := Tree.mem_allSites_of_child (Tree.node_mem_nodes hs) hchildren
      exact hnumbered.node_eq (Tree.node_mem_nodes hsite)

/-- Three error nodes: a block that is left open, one with an `end` too many, and a closed one. -/
def crowd : Phrase :=
  let opener : Phrase := .leaf .keyword none ⟨0, 5⟩
  let close : Phrase := .leaf .keyword none ⟨6, 9⟩
  .node .program none [.node .error none [opener, .leaf .word none ⟨6, 9⟩],
    .node .error none [opener, close, close], .node .error none [opener, close]]

theorem rule_build_crowd :
    let source := "begin end".toList
    let t : Tree := ⟨source, [crowd.plant 0 0]⟩
    Tree.build source crowd.calls = .ok t ∧
      (t.allSites.flatMap fun s => (rule source s).map fun f => (s.node.id, f.node.id, f.code)) =
        [(1, 1, .missingEnd), (4, 7, .extraEnd), (8, 8, .syntaxError)] ∧
      ∃ s ∈ t.allSites, s.node.id = 4 ∧ ∃ c, c.id = 7 ∧
        FirstExtra source s.node.keywordChildren c := by
  intro source t
  have hbuild : Tree.build source crowd.calls = .ok t := build_calls source crowd
  obtain ⟨-, hrule⟩ := rule_build hbuild
  refine ⟨hbuild, by decide +kernel, t.allSites[4], List.getElem_mem _, rfl,
    ⟨7, .keyword, none, ⟨6, 9⟩, []⟩, rfl, ?_⟩
  exact ((hrule _ (List.getElem_mem _)).1 rfl).anchor _ rfl

end Balance

end FishScript
