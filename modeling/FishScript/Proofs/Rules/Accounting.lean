/-
# Every error node and every block is accounted for

The structural diagnostics of a source tell how its blocks are closed: how many lack their `end`,
which words `end` close nothing, and that the blocks without an `end` all reach to the end of the
source, one inside the other.
-/
import Mathlib
import FishScript.Proofs.Rules.Structure

namespace FishScript

/-! ## Keywords that open and close blocks -/

namespace NodeKind

/-- Nodes of the kind are closed blocks. -/
def isBlock (kind : NodeKind) : Bool := Block.all.any (kind == ·.kind)

lemma isBlock_kind (b : Block) : b.kind.isBlock = true := by cases b <;> rfl

lemma isBlock_eq_false {kind : NodeKind} (h : ∀ b : Block, kind ≠ b.kind) :
    kind.isBlock = false := by
  simp [isBlock, h]

end NodeKind

namespace Site

/-- The keyword heads a block, or an error node that lacks its `end`. -/
def opensBlock (source : Text) (s : Site) : Bool :=
  s.before.isEmpty && Block.all.any (fun b => s.node.isKeyword source b.opener.toList) &&
    s.parent.any fun p => p.kind.isBlock || p.isError

/-- The keyword is an `end` that closes a block. -/
def closesBlock (source : Text) (s : Site) : Bool :=
  s.node.isEnd source && s.parent.any (·.kind.isBlock)

/-- The keyword is an `end` that closes no block. -/
def closesNothing (source : Text) (s : Site) : Bool :=
  s.node.isEnd source && !s.parent.any (·.kind.isBlock)

variable {source : Text} {n : Node}

lemma map_node_childrenFrom (parent : Node) (before ns : List Node) :
    (childrenFrom parent before ns).map node = ns := by
  induction ns generalizing before with
  | nil => rfl
  | cons n ns ih => rw [childrenFrom, List.map_cons, ih]

lemma countP_opensBlock_childrenFrom (parent : Node) {before : List Node} (hne : before ≠ [])
    (ns : List Node) : (childrenFrom parent before ns).countP (opensBlock source) = 0 := by
  induction ns generalizing before with
  | nil => rfl
  | cons n ns ih =>
    rw [childrenFrom, List.countP_cons_of_neg (by simp [opensBlock, hne]), ih (by simp)]

lemma countP_closesBlock (source : Text) (n : Node) :
    (children n).countP (closesBlock source) =
      if n.kind.isBlock then n.children.countP (·.isEnd source) else 0 := by
  have hmap : n.children = (children n).map node := (map_node_childrenFrom n [] n.children).symm
  split
  case isTrue hk =>
    rw [hmap, List.countP_map]
    refine List.countP_congr fun s hs => ?_
    simp [closesBlock, (surroundings_of_mem_childrenFrom hs).1, hk]
  case isFalse hk =>
    refine List.countP_eq_zero.2 fun s hs => ?_
    simp [closesBlock, (surroundings_of_mem_childrenFrom hs).1, hk]

end Site

/-! ## The account of a node -/

namespace Node

variable {source : Text} {n : Node}

lemma Sound.countP_ends (h : n.Sound source) :
    n.children.countP (·.isEnd source) = n.parts.countP (·.isEnd source) := by
  rw [parts, List.countP_map]
  exact List.countP_congr fun c hc => by
    rw [h.isEnd_child hc]
    rfl

lemma Sound.countP_opensBlock (h : n.Sound source) (hk : n.kind.isBlock = true ∨ n.isError = true) :
    (Site.children n).countP (Site.opensBlock source) =
      if n.parts.head?.any fun p => Block.all.any fun b => p.isKeyword source b.opener.toList
      then 1 else 0 := by
  have hkind : (n.kind.isBlock || n.isError) = true := by simpa using hk
  cases hchildren : n.children with
  | nil => simp [Site.children, hchildren, Site.childrenFrom, parts]
  | cons c cs =>
    have hc : c ∈ n.children := by simp [hchildren]
    have hwords : ∀ b : Block, c.isKeyword source b.opener.toList =
        c.part.isKeyword source b.opener.toList := fun b =>
      h.isKeyword_child hc (by cases b <;> decide)
    rw [Site.children, hchildren, Site.childrenFrom, List.countP_cons,
      Site.countP_opensBlock_childrenFrom n (by simp), parts, hchildren]
    simp [Site.opensBlock, hkind, hwords]

lemma isConstruct_error (source : Text) (ps : List Part) :
    FishScript.isConstruct source .error ps =
      ps.head?.any fun p => Block.all.any fun b => p.isKeyword source b.opener.toList := by
  cases ps with
  | nil => rfl
  | cons p ps => rfl

lemma faultCount_missingEnd (source : Text) (ps : List Part) :
    faultCount source .missingEnd .error ps =
      if FishScript.isConstruct source .error ps then 1 else 0 := by
  have hfault : FishScript.fault? source .error ps =
      if FishScript.isConstruct source .error ps then some .missingEnd
      else if ps.head?.any (·.isEnd source) then some .extraEnd
      else some .syntaxError := if_neg (not_not.2 rfl)
  rw [faultCount, hfault]
  cases FishScript.isConstruct source .error ps with
  | true => rfl
  | false => cases ps.head?.any (·.isEnd source) <;> rfl

/-- A node is headed by an opening word if it is a closed block, which one `end` closes, or a
block that lacks its `end`, and in no other case. -/
theorem Sound.account (h : n.Sound source) :
    (Site.children n).countP (Site.closesBlock source) +
        faultCount source .missingEnd n.kind n.parts =
      (Site.children n).countP (Site.opensBlock source) := by
  rw [Site.countP_closesBlock]
  by_cases hblock : ∃ b : Block, n.kind = b.kind
  · obtain ⟨b, hb⟩ := hblock
    have hk : n.kind.isBlock = true := hb ▸ NodeKind.isBlock_kind b
    have hne : n.kind ≠ .error := by
      rw [hb]
      cases b <;> simp [Block.kind]
    have hclosed := h.schema.closed hb
    rw [if_pos hk, h.countP_ends, hclosed.countP_isEnd, faultCount_of_kind hne,
      h.countP_opensBlock (.inl hk), if_pos]
    obtain ⟨front, close, args, hparts, hfront, -⟩ := hclosed
    obtain ⟨clauses, -, -, opener, body, rfl, hopener, -⟩ := hfront
    rw [hparts, List.cons_append, List.head?_cons, Option.any_some, List.any_eq_true]
    exact ⟨b, by cases b <;> decide, hopener⟩
  · -- an error node may be headed by an opening word, and no other node is
    have hk : n.kind.isBlock = false :=
      NodeKind.isBlock_eq_false fun b hb => hblock ⟨b, hb⟩
    rw [if_neg (by simp [hk]), Nat.zero_add]
    by_cases he : n.kind = .error
    · rw [h.countP_opensBlock (.inr (by simp [isError, he])), he, faultCount_missingEnd,
        isConstruct_error]
    · rw [faultCount_of_kind he]
      refine (List.countP_eq_zero.2 fun s hs => ?_).symm
      simp [Site.opensBlock, (Site.surroundings_of_mem_childrenFrom hs).1, hk, isError,
        he]

end Node

/-! ## Sums over the tree -/

section Sums

variable {source : Text} {c : Code}

lemma length_faulty (source : Text) (c : Code) (ns : List Node) :
    (Node.faulty source c ns).length =
      (ns.map fun n => faultCount source c n.kind n.parts).sum := by
  induction ns with
  | nil => rfl
  | cons n ns ih =>
    rw [faulty_cons, List.length_append, length_faulty_singleton, ih, List.map_cons,
      List.sum_cons]

/-- What no root satisfies is counted at the children of the nodes. -/
lemma countP_sites {P : Site → Bool} (root : Node) (hP : P ⟨root, none, [], []⟩ = false) :
    (root.sites none [] []).countP P =
      (root.preorder.map fun n => (Site.children n).countP P).sum := by
  rw [(root.sites_perm none [] []).countP_eq, List.countP_cons_of_neg (by simp [hP]),
    List.countP_flatMap]
  rfl

/-- The blocks of a tree, closed or not, are as many as the opening words that head a node. -/
theorem countP_blocks (source : Text) :
    (Node.faulty source .missingEnd (rootOf source).preorder).length +
        ((rootOf source).sites none [] []).countP (Site.closesBlock source) =
      ((rootOf source).sites none [] []).countP (Site.opensBlock source) := by
  rw [countP_sites _ (by simp [Site.closesBlock]), countP_sites _ (by simp [Site.opensBlock]),
    length_faulty, Nat.add_comm, ← List.sum_map_add]
  refine congrArg List.sum (List.map_congr_left fun n hn => ?_)
  exact (sound_of_mem_preorder hn).account

end Sums

/-! ## Words `end` that close nothing -/

section Strays

variable {source : Text} {n : Node} {s : Site}

/-- Of the children of a block no `end` closes nothing, of those of other nodes every one does. -/
lemma Site.filter_closesNothing (source : Text) (n : Node) :
    ((children n).filter (closesNothing source)).map (·.node.span) =
      if n.kind.isBlock then [] else (n.children.filter (·.isEnd source)).map Node.span := by
  have hmap : n.children = (children n).map node := (map_node_childrenFrom n [] n.children).symm
  split
  case isTrue hk =>
    rw [List.filter_eq_nil_iff.2, List.map_nil]
    intro s hs
    simp [closesNothing, (surroundings_of_mem_childrenFrom hs).1, hk]
  case isFalse hk =>
    rw [hmap, List.filter_map, List.map_map]
    refine congrArg _ (List.filter_congr fun s hs => ?_)
    simp [closesNothing, (surroundings_of_mem_childrenFrom hs).1, hk]

lemma Node.filter_isEnd_eq_nil {ns : List Node} (h : ∀ c ∈ ns, c.isEnd source = false) :
    ns.filter (·.isEnd source) = [] :=
  List.filter_eq_nil_iff.2 fun c hc => by simp [h c hc]

lemma Node.Sound.filter_isEnd_eq_nil (h : n.Sound source) (hk : n.kind.isBlock = false)
    (he : n.kind ≠ .error) : n.children.filter (·.isEnd source) = [] := by
  refine Node.filter_isEnd_eq_nil fun c hc => ?_
  obtain hends | hchildren := h.ends
  · rw [h.isEnd_child hc]
    refine hends.free (fun b hb => ?_) he c.part (List.mem_map_of_mem hc)
    rw [hb, NodeKind.isBlock_kind] at hk
    cases hk
  · rw [hchildren] at hc
    cases hc

lemma Node.Sound.stray_ends_of_isError (h : s.node.Sound source) (he : s.node.isError = true) :
    ((Balance.rule source s).filter (·.code == .extraEnd)).map (·.node.span) =
      (s.node.children.filter (·.isEnd source)).map Node.span := by
  obtain ⟨⟨node, parent, code⟩, hrule, hexplains, -⟩ := Balance.rule_of_isError h he
  simp only at hexplains
  rw [hrule]
  generalize hspan : node.span = span at hexplains
  cases hexplains with
  | missingEnd hb =>
    -- what closed the block would have been its `end`
    rw [Node.filter_isEnd_eq_nil fun c hc => (h.isEnd_child hc).trans
      (hb.isEnd c.part (List.mem_map_of_mem hc))]
    rfl
  | syntaxError _ hend =>
    rw [Node.filter_isEnd_eq_nil hend]
    rfl
  | extraEnd hchildren hclose hrest =>
    rw [hchildren, List.filter_cons_of_pos hclose, Node.filter_isEnd_eq_nil hrest]
    simp [hspan]

/-- Reported words `end` are the children of the node that are `end`s and close no block. -/
lemma Node.Sound.stray_ends (h : s.node.Sound source) :
    ((Balance.rule source s).filter (·.code == .extraEnd)).map (·.node.span) =
      ((Site.children s.node).filter (Site.closesNothing source)).map (·.node.span) := by
  rw [Site.filter_closesNothing]
  by_cases he : s.node.isError = true
  · have hkind : s.node.kind = .error := by simpa [Node.isError] using he
    rw [h.stray_ends_of_isError he, hkind]
    rfl
  · have hkind : s.node.kind ≠ .error := by simpa [Node.isError] using he
    rw [Balance.rule_of_not_isError (by simpa using he)]
    split
    case isTrue => rfl
    case isFalse hk =>
      rw [h.filter_isEnd_eq_nil (Bool.eq_false_iff.2 hk) hkind]
      rfl

end Strays

/-! ## Where blocks without their `end` stand -/

/-- Blocks without their `end` reach to the end of the last terminal, one inside the other. -/
theorem unclosed_nested (source : Text) :
    (∀ n ∈ Node.faulty source .missingEnd (rootOf source).preorder,
      (limited source).getLast?.map (·.span.stop) = some n.span.stop) ∧
    (Node.faulty source .missingEnd (rootOf source).preorder).Pairwise fun n m =>
      n.span.start ≤ m.span.start ∧ m.span.stop ≤ n.span.stop := by
  obtain ⟨children, heq, hfull, hleaves⟩ := parseTerminals_leaves (limited source)
  have hright := parseTerminals_opensRight fun t (ht : t ∈ limited source) =>
    known_of_mem_limited ht
  have hspans := map_span_leaves hleaves
  rw [rootOf, heq]
  rw [heq] at hright
  cases hchildren : children with
  | nil =>
    -- the tree is an empty program
    have hnone : Node.faulty source .missingEnd
        ((Phrase.node .program none []).plant 0 0).preorder = [] := by
      refine List.length_eq_zero_iff.1 ?_
      exact length_faulty_singleton source .missingEnd _
    rw [hnone]
    exact ⟨fun n hn => (List.not_mem_nil hn).elim, .nil⟩
  | cons p ps =>
    have hroot : (Phrase.node .program none children).Full := .node (by simp [hchildren]) hfull
    have horder : LeavesInOrder (Phrase.node .program none children).leaves := by
      have hlimited := inOrder_limitNesting source
      rwa [LeavesInOrder, Phrase.leaves, hspans]
    obtain ⟨hreach, hsorted⟩ := hright.plant hroot horder 0 0
    -- the leaves are the terminals, so the last leaf ends where the last terminal does
    rw [← hchildren]
    have hlast : (limited source).getLast?.map (·.span.stop) =
        some (extent (Phrase.node .program none children).leaves).stop := by
      have hstops := congrArg (fun ss => (ss.getLast?).map Span.stop) hspans
      simp only [List.getLast?_map, Option.map_map] at hstops
      exact hstops.symm.trans (map_stop_getLast? hroot.leaves_ne_nil)
    refine ⟨fun n hn => by rw [hlast, (hreach n hn).2], ?_⟩
    refine hsorted.imp_of_mem fun {n m} hn hm hle => ⟨hle, ?_⟩
    rw [(hreach n hn).2, (hreach m hm).2]

/-! ## The account of a source -/

/-- The diagnostic says what is wrong with the error node. -/
def Node.Reported (source : Text) (n : Node) (d : Diagnostic) : Prop :=
  Explains source n d.code d.span ∧ n.fault? source = some d.code

/-- The structural findings at some sites are one for each error node, in order. -/
lemma forall₂_reported {source : Text} (document : Document) {ss : List Site}
    (h : ∀ s ∈ ss, s.node.Sound source) :
    List.Forall₂ (Node.Reported source) ((ss.map Site.node).filter Node.isError)
      ((ss.flatMap (Balance.rule source)).map (·.diagnostic .standard source document)) := by
  induction ss with
  | nil => exact .nil
  | cons s ss ih =>
    obtain ⟨hs, hss⟩ := List.forall_mem_cons.1 h
    rw [List.map_cons, List.flatMap_cons]
    cases he : s.node.isError with
    | true =>
      obtain ⟨f, hrule, hf⟩ := Balance.rule_of_isError hs he
      rw [List.filter_cons_of_pos he, hrule, List.singleton_append, List.map_cons]
      exact .cons hf (ih hss)
    | false =>
      rw [List.filter_cons_of_neg (by simp [he]), Balance.rule_of_not_isError he, List.nil_append]
      exact ih hss

/-- The structural diagnostics of a source are one for each error node, in the order of the
nodes. -/
theorem diagnose_reported (source : Text) {document : Document} (hd : document.check = .ok ()) :
    ∃ ds, (Tree.mk source [rootOf source]).diagnose document = .ok ds ∧
      ds.filter (·.code.isStructural) =
        (((rootOf source).sites none [] []).flatMap (Balance.rule source)).map
          (·.diagnostic .standard source document) ∧
      List.Forall₂ (Node.Reported source) ((rootOf source).preorder.filter Node.isError)
        (ds.filter (·.code.isStructural)) := by
  obtain ⟨ds, hds, hstructural⟩ := Tree.diagnose_structural source (rootOf source) hd
  refine ⟨ds, hds, hstructural, ?_⟩
  rw [hstructural, ← (rootOf source).map_node_sites none [] []]
  refine forall₂_reported document fun s hs => sound_of_mem_preorder ?_
  rw [← (rootOf source).map_node_sites none [] []]
  exact List.mem_map_of_mem hs

lemma filter_isStructural {ds : List Diagnostic} {c : Code} (hc : c.isStructural = true) :
    (ds.filter (·.code.isStructural)).filter (·.code == c) = ds.filter (·.code == c) := by
  rw [List.filter_filter]
  refine List.filter_congr fun d _ => ?_
  by_cases hcode : d.code = c
  · simp [hcode, hc]
  · simp [hcode]

lemma forall₂_faulty {source : Text} {ns : List Node} {ds : List Diagnostic} {c : Code}
    (hc : c.isStructural = true)
    (h : List.Forall₂ (Node.Reported source) (ns.filter Node.isError)
      (ds.filter (·.code.isStructural))) :
    List.Forall₂ (fun n d => Explains source n c d.span) (Node.faulty source c ns)
      (ds.filter (·.code == c)) := by
  have hnodes : (ns.filter Node.isError).filter (fun n => n.fault? source == some c) =
      Node.faulty source c ns := by
    rw [List.filter_filter, Node.faulty]
    refine List.filter_congr fun n _ => ?_
    by_cases hk : n.kind = .error
    · simp [Node.isError, hk]
    · simp [Node.fault?, fault?_of_kind hk]
  have hreported : List.Forall₂ (Node.Reported source) (Node.faulty source c ns)
      (ds.filter (·.code == c)) := by
    rw [← hnodes, ← filter_isStructural hc]
    refine List.rel_filter (fun n d hnd => ?_) h
    simp [hnd.2]
  have hfaulty : ∀ n ∈ Node.faulty source c ns, n.fault? source = some c := fun n hn =>
    beq_iff_eq.1 (List.mem_filter.1 hn).2
  refine ((List.forall₂_and_left _ _).2 ⟨hfaulty, hreported⟩).imp ?_
  rintro n d ⟨hfault, hexplains, hcode⟩
  rw [hfault, Option.some_inj] at hcode
  rwa [← hcode] at hexplains

/-- What the structural diagnostics of a source say about its error nodes and its blocks. -/
structure Accounted (source : Text) (root : Node) (ds : List Diagnostic) : Prop where
  /-- Each error node is explained by one structural diagnostic, and each of these explains one
  error node. -/
  errors : List.Forall₂ (fun n d => Explains source n d.code d.span)
    (root.preorder.filter Node.isError) (ds.filter (·.code.isStructural))
  /-- Opening words that head a block, closed or not, are as many as the blocks that lack their
  `end` and the words `end` that close a block. -/
  blocks : ds.countP (·.code == .missingEnd) +
      (root.sites none [] []).countP (Site.closesBlock source) =
    (root.sites none [] []).countP (Site.opensBlock source)
  /-- The words `end` that close no block are those reported. -/
  ends : ((ds.filter (·.code == .extraEnd)).map Diagnostic.span).Perm
    (((root.sites none [] []).filter (Site.closesNothing source)).map (·.node.span))
  /-- A block that lacks its `end` reaches to the end of the last terminal. -/
  reach : ∀ d ∈ ds, d.code = .missingEnd →
    (limitNesting (terminals source)).getLast?.map (·.span.stop) = some d.span.stop
  /-- Each such block contains those reported behind it. -/
  nested : (ds.filter (·.code == .missingEnd)).Pairwise fun d d' =>
    d.span.start ≤ d'.span.start ∧ d'.span.stop ≤ d.span.stop

lemma map_span_filter {source : Text} {document : Document} {ds : List Diagnostic}
    {fs : List Finding} {c : Code} (hc : c.isStructural = true)
    (h : ds.filter (·.code.isStructural) = fs.map (·.diagnostic .standard source document)) :
    (ds.filter (·.code == c)).map Diagnostic.span =
      (fs.filter (·.code == c)).map (·.node.span) := by
  have hspans : ∀ fs : List Finding,
      ((fs.map (·.diagnostic .standard source document)).filter (·.code == c)).map
        Diagnostic.span = (fs.filter (·.code == c)).map (·.node.span) := by
    intro fs
    rw [List.filter_map, List.map_map]
    rfl
  rw [← filter_isStructural hc, h, hspans]

lemma ends_perm (source : Text) :
    ((((rootOf source).sites none [] []).flatMap (Balance.rule source)).filter
      (·.code == .extraEnd)).map (·.node.span) |>.Perm
    ((((rootOf source).sites none [] []).filter (Site.closesNothing source)).map
      (·.node.span)) := by
  have hroot : Site.closesNothing source ⟨rootOf source, none, [], []⟩ = false := by
    obtain ⟨children, heq, -⟩ := parseTerminals_leaves (limited source)
    rw [Site.closesNothing, Node.isEnd_eq_false_of_kind, Bool.false_and]
    rw [rootOf, heq, Phrase.plant]
    simp
  have hnodes := (rootOf source).map_node_sites none [] []
  have hperm := (((rootOf source).sites_perm none [] []).filter
    (Site.closesNothing source)).map (·.node.span)
  rw [List.filter_cons_of_neg (by simp [hroot]), ← hnodes, List.flatMap_map, List.filter_flatMap,
    List.map_flatMap] at hperm
  rw [List.filter_flatMap, List.map_flatMap]
  refine .trans (.of_eq (List.flatMap_congr fun s hs => ?_)) hperm.symm
  refine Node.Sound.stray_ends (sound_of_mem_preorder ?_)
  rw [← hnodes]
  exact List.mem_map_of_mem hs

/-- The structural diagnostics of every source account for its error nodes and for its blocks. -/
theorem diagnose_accounts (source : Text) {document : Document} (hd : document.check = .ok ()) :
    ∃ root ds, parse source = .ok ⟨source, [root]⟩ ∧
      (Tree.mk source [root]).diagnose document = .ok ds ∧ Accounted source root ds := by
  obtain ⟨ds, hds, hstructural, hreported⟩ := diagnose_reported source hd
  have hmissing := forall₂_faulty (c := .missingEnd) rfl hreported
  have hspans : (Node.faulty source .missingEnd (rootOf source).preorder).map Node.span =
      (ds.filter (·.code == .missingEnd)).map Diagnostic.span := by
    rw [← List.forall₂_eq_eq_eq, List.forall₂_map_left_iff, List.forall₂_map_right_iff]
    refine hmissing.imp fun n d hexplains => ?_
    generalize d.span = span at hexplains
    cases hexplains
    rfl
  obtain ⟨hreach, hnested⟩ := unclosed_nested source
  refine ⟨rootOf source, ds, parse_eq source, hds, ?_, ?_, ?_, ?_, ?_⟩
  · exact hreported.imp fun n d h => h.1
  · -- what is counted are the blocks themselves, one for each diagnostic
    rw [← countP_blocks, List.countP_eq_length_filter, hmissing.length_eq]
  · rw [map_span_filter rfl hstructural]
    exact ends_perm source
  · intro d hd hcode
    have hspan : d.span ∈ (ds.filter (·.code == .missingEnd)).map Diagnostic.span :=
      List.mem_map_of_mem (List.mem_filter.2 ⟨hd, by simp [hcode]⟩)
    rw [← hspans] at hspan
    obtain ⟨n, hn, hspan⟩ := List.mem_map.1 hspan
    rw [← hspan]
    exact hreach n hn
  · have hpairwise : ((Node.faulty source .missingEnd (rootOf source).preorder).map
        Node.span).Pairwise fun s s' => s.start ≤ s'.start ∧ s'.stop ≤ s.stop :=
      List.pairwise_map.2 hnested
    rw [hspans] at hpairwise
    exact List.pairwise_map.1 hpairwise

/-- A source with an `end` and a connector too many, and two blocks that stay open. -/
def unbalanced : Text := "begin\nend x\nend\n&& a\nif b\nwhile c".toList

/-- The account of that source, as a document that is autoloaded. -/
theorem diagnose_accounts_unbalanced :
    (Document.mk none (some "f".toList)).check = .ok () ∧
    ∃ root ds, parse unbalanced = .ok ⟨unbalanced, [root]⟩ ∧
      (Tree.mk unbalanced [root]).diagnose ⟨none, some "f".toList⟩ = .ok ds ∧
      ds.map (·.code) = [.extraEnd, .syntaxError, .missingEnd, .missingEnd] ∧
      Accounted unbalanced root ds := by
  have hcheck : (Document.mk none (some "f".toList)).check = .ok () := rfl
  obtain ⟨root, ds, hparse, hds, haccounted⟩ := diagnose_accounts unbalanced hcheck
  have hroot := eq_rootOf_of_parse hparse
  have hcodes : ((Tree.mk unbalanced [rootOf unbalanced]).diagnose
      ⟨none, some "f".toList⟩).toOption.map (·.map (·.code)) =
        some [.extraEnd, .syntaxError, .missingEnd, .missingEnd] := by decide +kernel
  rw [← hroot, hds] at hcodes
  exact ⟨hcheck, root, ds, hparse, hds, Option.some_inj.1 hcodes, haccounted⟩

end FishScript
