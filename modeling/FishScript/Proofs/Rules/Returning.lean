/-
# Statements that always return

What the rule for code behind a return makes of a tree. At the children of a function it reports
the statements behind the first that always returns (`flatMap_childrenFrom`), and whether a node
always returns can be told from its outline: so the node of a statement returns always just when
the statement does (`Statement.alwaysReturns_of_outline`).
-/
import Mathlib
import FishScript.Proofs.Grammar.Spacing
import FishScript.Proofs.Program.Branching
import FishScript.Proofs.Rules.Execution
import FishScript.Proofs.Rules.Structure

namespace FishScript

/-! ## Reports -/

namespace Reachability

variable {source : Text} {s : Site}

/-- The statements among nodes behind the first that always returns. -/
def pastReturn (ns : List Node) : List Node :=
  ((ns.filter Node.isStatement).dropWhile fun n => !n.alwaysReturns).tail

/-- The children of a function are reported behind the first statement that always returns. -/
lemma flatMap_childrenFrom {f : Node} (hf : f.kind = .functionDefinition) (before ns : List Node) :
    (Site.childrenFrom f before ns).flatMap (afterReturn source) =
      (if someReturns before then ns.filter Node.isStatement else pastReturn ns).map
        fun n => ⟨n, some f, .unreachableCode⟩ := by
  induction ns generalizing before with
  | nil => simp [Site.childrenFrom, pastReturn]
  | cons n ns ih =>
    rw [Site.childrenFrom, List.flatMap_cons, ih, someReturns]
    cases hs : n.isStatement with
    | false =>
      -- what is no statement is not reported, and what follows is reported as without it
      simp [afterReturn, pastReturn, hs]
    | true =>
      cases hbefore : someReturns before with
      | true => simp [afterReturn, Finding.here, hf, hs, hbefore]
      | false =>
        cases hr : n.alwaysReturns with
        | true => simp [afterReturn, pastReturn, hs, hbefore, hr]
        | false => simp [afterReturn, pastReturn, hs, hbefore, hr]

/-- Below nodes without functions nothing is reported but among the nodes themselves. -/
lemma flatMap_sitesOf {parent : Node} {ns : List Node}
    (h : ∀ n ∈ preorderAll ns, n.kind ≠ .functionDefinition) (before : List Node) :
    (sitesOf parent before ns).flatMap (afterReturn source) =
      (Site.childrenFrom parent before ns).flatMap (afterReturn source) := by
  induction ns generalizing before with
  | nil => rfl
  | cons n ns ih =>
    rw [preorderAll, List.forall_mem_append] at h
    obtain ⟨hn, hns⟩ := h
    have hbelow : (sitesOf n [] n.children).flatMap (afterReturn source) = [] := by
      -- a site below `n` has `n` or a node below it for a parent
      rw [List.flatMap_eq_nil_iff]
      refine fun s hs => afterReturn_eq_nil fun p hp => ?_
      rw [n.preorder_eq] at hn
      obtain hparent | ⟨q, hq, hparent⟩ := parent_of_mem_sitesOf hs
      · rw [hp, Option.some_inj] at hparent
        exact hn p (hparent ▸ List.mem_cons_self)
      · rw [hp, Option.some_inj] at hparent
        exact hn p (List.mem_cons_of_mem _ (hparent ▸ hq))
    rw [sitesOf, Site.childrenFrom, List.flatMap_append, ih hns, List.flatMap_cons, n.sites_eq,
      List.flatMap_cons, hbelow, List.append_nil]

lemma trailing_eq_nil {ns : List Node} (joined : Bool)
    (h : ∀ n ∈ ns.head?, n.kind = .terminator) : trailing joined ns = [] := by
  cases ns with
  | nil => rfl
  | cons n ns => rw [trailing, h n rfl, if_pos (show endsStatement .terminator = true from rfl)]

/-- In a tree in which only ends of statements follow commands, nothing is reported behind a
command. -/
lemma trailingChain_eq_nil {root : Node}
    (hspaced : ∀ n ∈ root.preorder, (n.children.map Node.kind).IsChain Follows)
    (hs : s ∈ root.sites none [] []) (hk : s.node.kind ≠ .pipeline) :
    trailingChain source s = [] := by
  rw [trailingChain]
  split
  case isFalse => rfl
  case isTrue h =>
    obtain ⟨hcommand, hparent⟩ := Bool.and_eq_true_iff.1 h
    have hcommand : s.node.kind = .command := by simpa [hk] using hcommand
    obtain hnone | ⟨p, hp, -, hchildren⟩ := Node.surroundings_of_mem_sites hs
    · rw [hnone] at hparent
      cases hparent
    · -- among the children of its parent the command is last or stands before such an end
      have hchain := hspaced p hp
      rw [hchildren, List.map_append, List.map_cons] at hchain
      obtain ⟨-, hchain, -⟩ := List.isChain_append.1 hchain
      rw [trailing_eq_nil, List.map_nil]
      intro n hn
      refine (List.isChain_cons.1 hchain).1 n.kind ?_ hcommand
      rw [List.head?_map, Option.mem_def.1 hn]
      rfl

end Reachability

lemma firstFindings_eq_afterReturn {source : Text} {s : Site} (he : s.node.kind ≠ .error)
    (hv : s.node.kind ≠ .variableDefinition) (ht : Reachability.trailingChain source s = []) :
    firstFindings siteRules source s = Reachability.afterReturn source s := by
  have hbalance : Balance.rule source s = [] := if_pos (by simp [Node.isError, he])
  have hvariables : Variables.rule source s = [] := Variables.rule_of_ne hv
  cases h : Reachability.afterReturn source s with
  | nil => simp only [siteRules, firstFindings, hbalance, hvariables, h, ht]
  | cons f fs => simp only [siteRules, firstFindings, hbalance, hvariables, h]

/-! ## What outlines tell of nodes -/

lemma outlinesOf_eq (source : Text) (ns : List Node) :
    outlinesOf source ns = (ns.filter Node.isNamed).map (Node.outline source) := by
  induction ns with
  | nil => rfl
  | cons n ns ih =>
    rw [outlinesOf, ih]
    cases hn : n.isNamed <;> simp [hn]

section Nodes

variable {source : Text} {n : Node} {ns : List Node}

/-- An outline tells the kind and the role of a node and the outlines of its named children. -/
lemma Node.of_outline_eq {kind : NodeKind} {field : Option Field} {text : Text}
    {os : List Program.Outline} (h : n.outline source = .node kind field text os) :
    n.kind = kind ∧ n.field = field ∧ n.namedChildren.map (Node.outline source) = os := by
  cases n
  rw [Node.outline, outlinesOf_eq] at h
  injection h with hkind hfield _ hos
  exact ⟨hkind, hfield, hos⟩

lemma someReturns_append (ns ms : List Node) :
    someReturns (ns ++ ms) = (someReturns ns || someReturns ms) := by
  induction ns with
  | nil => rfl
  | cons n ns ih => rw [List.cons_append, someReturns, someReturns, ih, Bool.or_assoc]

lemma clausesReturn_cons (n : Node) (ns : List Node) : clausesReturn (n :: ns) =
    ((if n.kind == .elseIfClause || n.kind == .elseClause then someReturns n.children else true) &&
      clausesReturn ns) := by
  cases n
  rfl

lemma clausesReturn_append (ns ms : List Node) :
    clausesReturn (ns ++ ms) = (clausesReturn ns && clausesReturn ms) := by
  induction ns with
  | nil => rfl
  | cons n ns ih =>
    rw [List.cons_append, clausesReturn_cons, clausesReturn_cons, ih, Bool.and_assoc]

lemma someReturns_named (n : Node) : someReturns n.namedChildren = someReturns n.children := by
  rw [Node.namedChildren, Bool.eq_iff_iff, someReturns_eq_true, someReturns_eq_true]
  refine exists_congr fun m => ?_
  rw [List.mem_filter, and_assoc, Node.isStatement]
  simp +contextual [Bool.and_eq_true]

lemma clausesReturn_named (n : Node) :
    clausesReturn n.namedChildren = clausesReturn n.children := by
  rw [Node.namedChildren, Bool.eq_iff_iff, clausesReturn_eq_true, clausesReturn_eq_true]
  refine forall_congr' fun m => ?_
  rw [List.mem_filter, Node.isNamed]
  constructor
  · rintro h hm (hk | hk) <;> exact h ⟨hm, by rw [hk]; rfl⟩ (by simp [hk])
  · exact fun h hm => h hm.1

lemma Node.alwaysReturns_eq_false (hr : n.kind ≠ .returnStatement) (hi : n.kind ≠ .ifStatement) :
    n.alwaysReturns = false := by
  cases n
  unfold alwaysReturns
  split
  · exact absurd rfl hr
  · exact absurd rfl hi
  · rfl

/-- A conditional returns always if its named children say so. -/
lemma Node.alwaysReturns_conditional (hk : n.kind = .ifStatement) :
    n.alwaysReturns = (n.namedChildren.any (·.kind == .elseClause) &&
      someReturns n.namedChildren && clausesReturn n.namedChildren) := by
  have helse : n.namedChildren.any (·.kind == .elseClause) =
      n.children.any (·.kind == .elseClause) := by
    rw [namedChildren, List.any_filter]
    congr 1
    funext m
    by_cases hm : m.kind = .elseClause <;> simp [hm, isNamed, NodeKind.isNamed]
  rw [helse, someReturns_named, clausesReturn_named]
  cases n
  cases hk
  rfl

end Nodes

namespace Flow

open Program

variable {source : Text}

lemma Statement.isStatement_of_outline {s : Statement} {n : Node}
    (h : n.outline source = s.construct.outline none) : n.isStatement = true := by
  cases s <;> obtain ⟨hkind, hfield, -⟩ := Node.of_outline_eq h <;>
    simp [Node.isStatement, Node.isNamed, hkind, hfield, NodeKind.isNamed, NodeKind.isClause]

lemma Body.isStatement_of_outlines : ∀ {b : Body} {ns : List Node},
    ns.map (Node.outline source) = b.toProgram.outlines → ∀ n ∈ ns, n.isStatement = true
  | .nil, ns, h, n, hn => by
    rw [List.map_eq_nil_iff.1 h] at hn
    cases hn
  | .cons statement rest, ns, h, n, hn => by
    obtain ⟨m, ms, rfl, hm, hms⟩ := List.map_eq_cons_iff.1 h
    rcases List.mem_cons.1 hn with rfl | hn
    · exact statement.isStatement_of_outline hm
    · exact rest.isStatement_of_outlines hms n hn

lemma clauses_of_statements {ns : List Node} (h : ∀ n ∈ ns, n.isStatement = true) :
    ns.any (·.kind == .elseClause) = false ∧ clausesReturn ns = true := by
  have hclause : ∀ n ∈ ns, ¬ n.kind.isClause = true := by
    intro n hn hk
    simpa [Node.isStatement, hk] using h n hn
  refine ⟨List.any_eq_false.2 fun n hn hk => ?_, clausesReturn_eq_true.2 fun n hn hk => ?_⟩
  · rw [beq_iff_eq] at hk
    exact absurd (by rw [hk]; rfl) (hclause n hn)
  · obtain hk | hk := hk
    · exact absurd (by rw [hk]; rfl) (hclause n hn)
    · exact absurd (by rw [hk]; rfl) (hclause n hn)

mutual

theorem Statement.alwaysReturns_of_outline : ∀ (s : Statement) {n : Node},
    n.outline source = s.construct.outline none → n.alwaysReturns = s.alwaysReturns
  | .returning args, n, h => by
    obtain ⟨hkind, -⟩ := Node.of_outline_eq h
    cases n
    cases hkind
    rfl
  | .conditional condition body branches, n, h => by
    obtain ⟨hkind, -, hos⟩ := Node.of_outline_eq h
    -- the named children: a condition, the statements of the first body, the other branches
    obtain ⟨g, ms, hnamed, hg, hms⟩ := List.map_eq_cons_iff.1 hos
    have hms : ms.map (Node.outline source) =
      body.toProgram.outlines ++ branches.toProgram.outlines := hms
    obtain ⟨bs, cs, rfl, hbs, hcs⟩ := List.map_eq_append_iff.1 hms
    obtain ⟨hgkind, hgfield, -⟩ := Node.of_outline_eq hg
    obtain ⟨helse, hclauses⟩ := clauses_of_statements (body.isStatement_of_outlines hbs)
    obtain ⟨hsome, hall⟩ := branches.allReturn_of_outlines hcs
    have hbody := body.someReturns_of_outlines hbs
    have hgstatement : g.isStatement = false := by simp [Node.isStatement, hgfield]
    have hgelse : (g.kind == .elseClause) = false := by rw [hgkind]; rfl
    have hgelseIf : (g.kind == .elseIfClause) = false := by rw [hgkind]; rfl
    rw [Node.alwaysReturns_conditional hkind, hnamed, someReturns, clausesReturn_cons,
      someReturns_append, clausesReturn_append, List.any_cons, List.any_append, helse, hclauses,
      hsome, hbody, Statement.alwaysReturns, ← hall, hgstatement, hgelse, hgelseIf]
    simp [Bool.and_assoc, Bool.and_left_comm]
  | .command call, n, h => by
    obtain ⟨hkind, -⟩ := Node.of_outline_eq h
    exact Node.alwaysReturns_eq_false (by simp [hkind]) (by simp [hkind])
  | .choice values cases, n, h => by
    obtain ⟨hkind, -⟩ := Node.of_outline_eq h
    exact Node.alwaysReturns_eq_false (by simp [hkind]) (by simp [hkind])
  | .loop condition body, n, h => by
    obtain ⟨hkind, -⟩ := Node.of_outline_eq h
    exact Node.alwaysReturns_eq_false (by simp [hkind]) (by simp [hkind])
  | .block body, n, h => by
    obtain ⟨hkind, -⟩ := Node.of_outline_eq h
    exact Node.alwaysReturns_eq_false (by simp [hkind]) (by simp [hkind])

theorem Body.someReturns_of_outlines : ∀ (b : Body) {ns : List Node},
    ns.map (Node.outline source) = b.toProgram.outlines → someReturns ns = b.someReturns
  | .nil, ns, h => by
    rw [List.map_eq_nil_iff.1 h]
    rfl
  | .cons statement rest, ns, h => by
    obtain ⟨m, ms, rfl, hm, hms⟩ := List.map_eq_cons_iff.1 h
    rw [FishScript.someReturns, statement.isStatement_of_outline hm,
      statement.alwaysReturns_of_outline hm, rest.someReturns_of_outlines hms, Bool.true_and]
    rfl

theorem Branches.allReturn_of_outlines : ∀ (b : Branches) {ns : List Node},
    ns.map (Node.outline source) = b.toProgram.outlines →
      someReturns ns = false ∧
        (ns.any (·.kind == .elseClause) && clausesReturn ns) = b.allReturn
  | .nil, ns, h => by
    rw [List.map_eq_nil_iff.1 h]
    exact ⟨rfl, rfl⟩
  | .otherwise body, ns, h => by
    obtain ⟨m, ms, rfl, hm, hms⟩ := List.map_eq_cons_iff.1 h
    obtain rfl := List.map_eq_nil_iff.1 hms
    obtain ⟨hkind, -, hos⟩ := Node.of_outline_eq hm
    have hbody := body.someReturns_of_outlines hos
    rw [someReturns_named] at hbody
    refine ⟨?_, ?_⟩
    · simp [FishScript.someReturns, Node.isStatement, hkind, NodeKind.isClause]
    · rw [clausesReturn_cons]
      simp [hkind, hbody, clausesReturn, Branches.allReturn]
  | .elseIf condition body rest, ns, h => by
    obtain ⟨m, ms, rfl, hm, hms⟩ := List.map_eq_cons_iff.1 h
    obtain ⟨hkind, -, hos⟩ := Node.of_outline_eq hm
    obtain ⟨g, bs, hnamed, hg, hbs⟩ := List.map_eq_cons_iff.1 hos
    obtain ⟨hgkind, hgfield, -⟩ := Node.of_outline_eq hg
    obtain ⟨hsome, hall⟩ := rest.allReturn_of_outlines hms
    have hbody : someReturns m.children = body.someReturns := by
      rw [← someReturns_named, hnamed, FishScript.someReturns, body.someReturns_of_outlines hbs]
      simp [Node.isStatement, hgfield]
    refine ⟨?_, ?_⟩
    · simp [FishScript.someReturns, Node.isStatement, hkind, NodeKind.isClause, hsome]
    · have helse : (m.kind == .elseClause) = false := by rw [hkind]; rfl
      have helseIf : (m.kind == .elseIfClause) = true := by rw [hkind]; rfl
      rw [clausesReturn_cons, Branches.allReturn, ← hall, List.any_cons, helse, helseIf, hbody]
      simp [Bool.and_left_comm]

end

end Flow

end FishScript
