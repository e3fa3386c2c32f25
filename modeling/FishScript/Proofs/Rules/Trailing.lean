/-
# What follows a command without a connector

The rule for commands that nothing separates looks at the siblings behind a command one by one,
and what it takes a sibling for depends on those before it. What it finds can be said at once
(`Site.unjoined`). Where commands and continuations stand in a row, each command is followed by
what its successors are followed by too, so that the same node is reported for each command before
it (`brokenOff`).
-/
import Mathlib
import FishScript.Proofs.Rules.Chaining
import FishScript.Proofs.Rules.Returning
import FishScript.Proofs.Tree.Links
import FishScript.Proofs.Tree.Numbering

namespace FishScript

/-! ## One command -/

/-- The siblings behind a node before the first that ends its statement. -/
def Site.following (s : Site) : List Node :=
  s.after.takeWhile fun n =>
    n.kind ∉ [.terminator, .elseIfClause, .elseClause, .caseClause, .error]

/-- What follows a command or a pipeline, in a list of statements, on its own statement: the named
nodes from the first on that is no conditional execution. -/
def Site.unjoined (s : Site) : List Node :=
  if (s.node.kind = .command ∨ s.node.kind = .pipeline) ∧ s.parent.any (·.kind.holdsStatements) then
    (s.following.filter Node.isNamed).dropWhile (·.kind = .conditionalExecution)
  else []

namespace Reachability

variable {source : Text} {s : Site}

lemma endsStatement_iff (kind : NodeKind) : endsStatement kind = true ↔
    kind ∈ [.terminator, .elseIfClause, .elseClause, .caseClause, .error] := by
  cases kind <;> decide

/-- While everything so far is joined, conditional executions are left out, and then nothing is. -/
lemma trailing_eq (joined : Bool) (ns : List Node) :
    trailing joined ns = ((ns.takeWhile fun n => !endsStatement n.kind).filter
      Node.isNamed).dropWhile fun n => joined && n.kind == .conditionalExecution := by
  induction ns generalizing joined with
  | nil => rfl
  | cons n ns ih =>
    have hall : trailing false ns =
        (ns.takeWhile fun n => !endsStatement n.kind).filter Node.isNamed := by
      rw [ih false]
      simp
    rw [trailing, hall, ih joined, List.takeWhile_cons]
    cases hends : endsStatement n.kind with
    | true => rfl
    | false =>
      cases hnamed : n.isNamed with
      | false => simp [hnamed]
      | true =>
        cases hjoined : joined && n.kind == .conditionalExecution <;> simp [hnamed, hjoined]

theorem trailingChain_eq (source : Text) (s : Site) :
    trailingChain source s = s.unjoined.map (.beside s · .unreachableCode) := by
  have hends (n : Node) : decide
      (n.kind ∉ [NodeKind.terminator, .elseIfClause, .elseClause, .caseClause, .error]) =
        !endsStatement n.kind := by
    rw [Bool.eq_iff_iff, decide_eq_true_iff, Bool.not_eq_true', Bool.eq_false_iff, Ne,
      endsStatement_iff]
  have hfollowing : s.following = s.after.takeWhile fun n => !endsStatement n.kind := by
    simp only [Site.following, hends]
  have hasked : ((s.node.kind == .command || s.node.kind == .pipeline) &&
      s.parent.any (·.kind.holdsStatements)) = true ↔
        (s.node.kind = .command ∨ s.node.kind = .pipeline) ∧
          s.parent.any (·.kind.holdsStatements) := by
    simp
  rw [trailingChain, Site.unjoined, trailing_eq, hfollowing]
  by_cases h : (s.node.kind = .command ∨ s.node.kind = .pipeline) ∧
      s.parent.any (·.kind.holdsStatements)
  · rw [if_pos h, if_pos (hasked.2 h)]
    rfl
  · rw [if_neg h, if_neg (mt hasked.1 h)]
    rfl

lemma nodup_unjoined {t : Tree} (h : t.Numbered) (hs : s ∈ t.allSites) :
    (s.unjoined.map Node.id).Nodup := by
  unfold Site.unjoined
  split
  case isFalse => exact List.nodup_nil
  case isTrue hholds =>
    obtain htop | ⟨p, hp, -, hchildren⟩ := Tree.surroundings_of_mem_allSites hs
    · rw [htop] at hholds
      simp [Site.top] at hholds
    · have hafter : s.following.Sublist p.children := by
        rw [hchildren]
        exact (List.takeWhile_sublist _).trans
          ((List.sublist_cons_self _ _).trans (List.sublist_append_right _ _))
      refine (h.nodup_map_id_children hp).sublist (List.Sublist.map Node.id ?_)
      exact (List.dropWhile_sublist _).trans (List.filter_sublist.trans hafter)

end Reachability

/-! ## Commands and continuations in a row -/

/-- The node is a command of one word. -/
def Node.IsBare (n : Node) : Prop :=
  n.kind = .command ∧ ∃ w, n.children = [w] ∧ w.kind = .word ∧ w.children = []

/-- The node is a connector with a command of one word. -/
def Node.Continues (n : Node) : Prop :=
  n.kind = .conditionalExecution ∧ ∃ o c, n.children = [o, c] ∧
    o.kind = .operator ∧ o.children = [] ∧ c.IsBare

/-- What is reported for each command of a row in turn: behind the command, all from the next
command on. -/
def brokenOff : List Node → List Node
  | [] => []
  | n :: rest =>
    (if n.kind = .command then rest.dropWhile (·.kind = .conditionalExecution) else []) ++
      brokenOff rest

/-- The kinds of nodes that a row is made of. -/
def rowKinds : List NodeKind := [.command, .conditionalExecution, .operator, .word]

section Row

variable {source : Text} {root p n last : Node} {ns : List Node}

/-- In a tree in which only commands can be judged, the walk finds what the rule for what follows a
command finds. -/
lemma firstFindings_of_isTame {s : Site} (hs : s ∈ root.sites none [] [])
    (htame : ∀ n ∈ root.preorder, Flow.IsTame n.kind) :
    firstFindings siteRules source s = Reachability.trailingChain source s := by
  obtain ⟨herror, hvariable, -, hpipeline⟩ := htame s.node (Site.node_mem hs)
  have hreturn : Reachability.afterReturn source s = [] :=
    Reachability.afterReturn_eq_nil fun q hq =>
      (htame q (Site.parent_mem hs hq).1).2.2.1
  by_cases hk : s.node.kind = .command
  · exact firstFindings_eq_trailingChain (.inl hk) hreturn
  · have hnone : Reachability.trailingChain source s = [] := by
      simp [Reachability.trailingChain, hk, hpipeline]
    rw [firstFindings_eq_afterReturn herror hvariable hnone, hreturn, hnone]

lemma flatMap_trailingChain_sitesOf (h : ∀ n ∈ preorderAll ns, n.kind.holdsStatements = false)
    (before : List Node) :
    (sitesOf p before ns).flatMap (Reachability.trailingChain source) =
      (Site.childrenFrom p before ns).flatMap (Reachability.trailingChain source) := by
  induction ns generalizing before with
  | nil => rfl
  | cons n ns ih =>
    rw [preorderAll, List.forall_mem_append, n.preorder_eq] at h
    obtain ⟨hn, hns⟩ := h
    have hbelow : (sitesOf n [] n.children).flatMap (Reachability.trailingChain source) = [] := by
      rw [List.flatMap_eq_nil_iff]
      intro s hs
      have hparent : s.parent.any (·.kind.holdsStatements) = false := by
        obtain hparent | ⟨q, hq, hparent⟩ := parent_of_mem_sitesOf hs
        · rw [hparent]
          exact hn n List.mem_cons_self
        · rw [hparent]
          exact hn q (List.mem_cons_of_mem _ hq)
      simp [Reachability.trailingChain, hparent]
    rw [sitesOf, Site.childrenFrom, List.flatMap_append, ih hns, List.flatMap_cons, n.sites_eq,
      List.flatMap_cons, hbelow, List.append_nil]

lemma unjoined_row {n : Node} (hp : p.kind.holdsStatements = true) (hn : n.kind ≠ .pipeline)
    (hns : ∀ m ∈ ns, m.kind = .command ∨ m.kind = .conditionalExecution)
    (hlast : last.kind = .terminator) (before : List Node) :
    Site.unjoined ⟨n, some p, before, ns ++ [last]⟩ =
      if n.kind = .command then ns.dropWhile (·.kind = .conditionalExecution) else [] := by
  have hgoes : ∀ m ∈ ns, decide (m.kind ∉
      [NodeKind.terminator, .elseIfClause, .elseClause, .caseClause, .error]) = true := by
    intro m hm
    rcases hns m hm with hk | hk <;> simp [hk]
  have hfollowing : Site.following ⟨n, some p, before, ns ++ [last]⟩ = ns := by
    rw [Site.following, List.takeWhile_append_of_pos hgoes,
      List.takeWhile_cons_of_neg (by simp [hlast]), List.append_nil]
  have hnamed : ns.filter Node.isNamed = ns :=
    List.filter_eq_self.2 fun m hm => by
      rcases hns m hm with hk | hk <;> simp [Node.isNamed, hk, NodeKind.isNamed]
  rw [Site.unjoined, hfollowing, hnamed]
  simp [hn, hp]

/-- At the nodes of a row what is broken off is found. -/
lemma flatMap_trailingChain_row (hp : p.kind.holdsStatements = true)
    (hns : ∀ n ∈ ns, n.kind = .command ∨ n.kind = .conditionalExecution)
    (hlast : last.kind = .terminator) (before : List Node) :
    (Site.childrenFrom p before (ns ++ [last])).flatMap (Reachability.trailingChain source) =
      (brokenOff ns).map fun n => ⟨n, some p, .unreachableCode⟩ := by
  induction ns generalizing before with
  | nil => simp [Site.childrenFrom, Reachability.trailingChain, hlast, brokenOff]
  | cons n ns ih =>
    obtain ⟨hn, hrest⟩ := List.forall_mem_cons.1 hns
    have hpipeline : n.kind ≠ .pipeline := by
      rcases hn with hk | hk <;> simp [hk]
    rw [List.cons_append, Site.childrenFrom, List.flatMap_cons, ih hrest,
      Reachability.trailingChain_eq, unjoined_row hp hpipeline hrest hlast, brokenOff,
      List.map_append]
    rfl

lemma Node.IsBare.kind_mem (h : n.IsBare) : ∀ m ∈ n.preorder, m.kind ∈ rowKinds := by
  obtain ⟨hk, w, hchildren, hw, hwords⟩ := h
  rw [n.preorder_eq, hchildren, preorderAll, w.preorder_eq, hwords]
  simp [preorderAll, rowKinds, hk, hw]

lemma Node.Continues.kind_mem (h : n.Continues) : ∀ m ∈ n.preorder, m.kind ∈ rowKinds := by
  obtain ⟨hk, o, c, hchildren, ho, hoperator, hc⟩ := h
  rw [n.preorder_eq, hchildren, preorderAll, o.preorder_eq, hoperator, preorderAll]
  simpa [preorderAll, rowKinds, hk, ho] using hc.kind_mem

end Row

/-- A program that is a row of commands and continuations with the end of a statement. -/
structure Node.IsRow (root : Node) (links : List Node) (last : Node) : Prop where
  kind : root.kind = .program
  children : root.children = links ++ [last]
  links : ∀ n ∈ links, n.IsBare ∨ n.Continues
  last_kind : last.kind = .terminator
  last_children : last.children = []

namespace Node.IsRow

variable {root last : Node} {links : List Node}

lemma kind_of_mem_links (h : root.IsRow links last) :
    ∀ n ∈ preorderAll links, n.kind ∈ rowKinds := by
  intro n hn
  obtain ⟨link, hlink, hn⟩ := mem_preorderAll.1 hn
  rcases h.links link hlink with hbare | hcontinues
  · exact hbare.kind_mem n hn
  · exact hcontinues.kind_mem n hn

lemma preorderAll_children (h : root.IsRow links last) :
    preorderAll root.children = preorderAll links ++ [last] := by
  rw [h.children, preorderAll_append, preorderAll, last.preorder_eq, h.last_children]
  rfl

lemma isTame (h : root.IsRow links last) : ∀ n ∈ root.preorder, Flow.IsTame n.kind := by
  have hrow : ∀ kind ∈ rowKinds, Flow.IsTame kind := by decide
  rw [root.preorder_eq, h.preorderAll_children, List.forall_mem_cons, List.forall_mem_append,
    List.forall_mem_singleton, h.kind, h.last_kind]
  exact ⟨by decide, fun n hn => hrow _ (h.kind_of_mem_links n hn), by decide⟩

lemma holdsStatements_eq_false (h : root.IsRow links last) :
    ∀ n ∈ preorderAll root.children, n.kind.holdsStatements = false := by
  have hrow : ∀ kind ∈ rowKinds, kind.holdsStatements = false := by decide
  rw [h.preorderAll_children, List.forall_mem_append, List.forall_mem_singleton, h.last_kind]
  exact ⟨fun n hn => hrow _ (h.kind_of_mem_links n hn), rfl⟩

theorem walkFindings_eq (h : root.IsRow links last) (t : Tree) :
    t.walkFindings root =
      (brokenOff links).map fun n => ⟨n, some root, .unreachableCode⟩ := by
  have hrules : t.walkFindings root =
      (root.sites none [] []).flatMap (Reachability.trailingChain t.source) :=
    List.flatMap_congr fun s hs => firstFindings_of_isTame hs h.isTame
  have hroot : Reachability.trailingChain t.source ⟨root, none, [], []⟩ = [] := by
    simp [Reachability.trailingChain]
  have hkinds : ∀ n ∈ links, n.kind = .command ∨ n.kind = .conditionalExecution :=
    fun n hn => (h.links n hn).imp And.left And.left
  have hholds : root.kind.holdsStatements = true := by rw [h.kind]; rfl
  rw [hrules, root.sites_eq, List.flatMap_cons, hroot, List.nil_append,
    flatMap_trailingChain_sitesOf h.holdsStatements_eq_false, h.children,
    flatMap_trailingChain_row hholds hkinds h.last_kind]

end Node.IsRow

/-- In the tree that calls of the builder describe, the rule finds behind a command or a pipeline
what is not joined to it, in order and each node once, and at every other node nothing. So a program
that is a row of commands and continuations gets, for each of its commands in turn, the diagnostics
of all that is broken off behind it, and no others. -/
theorem trailingChain_build {source : Text} {calls : List BuildCall} {t : Tree}
    (h : Tree.build source calls = .ok t) :
    t.allSites.map Site.node = t.nodes ∧
    (∀ s ∈ t.allSites,
      (s = .top s.node ∨ ∃ p ∈ t.nodes, s.parent = some p ∧
        p.children = s.before.reverse ++ s.node :: s.after) ∧
      Reachability.trailingChain source s = s.unjoined.map (.beside s · .unreachableCode) ∧
      (s.unjoined.map Node.id).Nodup) ∧
    ∀ root first links last, t.root = .ok root → root.kind = .program →
      root.children = first :: links ++ [last] → first.IsBare →
      (∀ n ∈ links, n.IsBare ∨ n.Continues) → last.kind = .terminator → last.children = [] →
      t.diagnose .anonymous =
        .ok ((brokenOff (first :: links)).map fun n => .ofCode .unreachableCode n.span) := by
  have hnumbered : t.Numbered := map_id_nodes h
  refine ⟨t.map_node_allSites, fun s hs => ⟨Tree.surroundings_of_mem_allSites hs,
    Reachability.trailingChain_eq source s, Reachability.nodup_unjoined hnumbered hs⟩, ?_⟩
  intro root first links last hroot hkind hchildren hfirst hlinks hlast hleaf
  have hrow : root.IsRow (first :: links) last :=
    ⟨hkind, hchildren, List.forall_mem_cons.2 ⟨.inl hfirst, hlinks⟩, hlast, hleaf⟩
  rw [Tree.diagnose_of_root hroot rfl,
    Tree.namingFindings_eq_nil (fun n hn => (hrow.isTame n hn).2.2.1), hrow.walkFindings_eq,
    List.nil_append, List.map_map]
  rfl

/-- A command of one letter. -/
def letterCommand (start : Nat) : Phrase :=
  .node .command none [.leaf .word (some .name) ⟨start, start + 1⟩]

/-- A connector with such a command. -/
def letterContinuation (start : Nat) : Phrase :=
  .node .conditionalExecution none [.leaf .operator none ⟨start, start + 2⟩,
    letterCommand (start + 3)]

/-- Three commands, two of them with a continuation behind them, in a row. -/
def letterRow : Phrase :=
  .node .program none [letterCommand 0, letterCommand 2, letterContinuation 4, letterCommand 9,
    letterContinuation 11, .leaf .terminator none ⟨15, 16⟩]

theorem trailingChain_build_letters :
    let source := "a b && c d && e\n".toList
    let t : Tree := ⟨source, [letterRow.plant 0 0]⟩
    Tree.build source letterRow.calls = .ok t ∧
      (t.allSites.map fun s => s.unjoined.map Node.span).filter (!·.isEmpty) =
        [[⟨2, 3⟩, ⟨4, 8⟩, ⟨9, 10⟩, ⟨11, 15⟩], [⟨9, 10⟩, ⟨11, 15⟩]] ∧
      t.diagnose .anonymous =
        .ok ([⟨2, 3⟩, ⟨4, 8⟩, ⟨9, 10⟩, ⟨11, 15⟩, ⟨9, 10⟩, ⟨11, 15⟩].map
          fun span => .ofCode .unreachableCode span) := by
  intro source t
  have hbuild : Tree.build source letterRow.calls = .ok t := build_calls source letterRow
  have hbare (id cursor start : Nat) : ((letterCommand start).plant id cursor).IsBare :=
    ⟨rfl, _, rfl, rfl, rfl⟩
  have hcontinues (id cursor start : Nat) :
      ((letterContinuation start).plant id cursor).Continues :=
    ⟨rfl, _, _, rfl, rfl, rfl, hbare _ _ _⟩
  have hlinks : ∀ n ∈ [(letterCommand 2).plant 3 1, (letterContinuation 4).plant 5 3,
      (letterCommand 9).plant 9 8, (letterContinuation 11).plant 11 10],
      n.IsBare ∨ n.Continues := by
    simp [hbare, hcontinues]
  obtain ⟨-, -, hdiagnose⟩ := trailingChain_build hbuild
  exact ⟨hbuild, by decide +kernel, hdiagnose (letterRow.plant 0 0) ((letterCommand 0).plant 1 0) _
    ⟨15, .terminator, none, ⟨15, 16⟩, []⟩ rfl rfl rfl (hbare 1 0 0) hlinks rfl rfl⟩

end FishScript
