/-
# Findings in source behind other source

The rules see of a node its text, what stands below it and what stands beside it. So they find the
same in source that stands behind other source, and in source that other source follows, if nothing
leaks over the separator between the two: nothing behind the separator is run into by a command
before it, and nothing before it is looked at from behind. What the walk reports for two sources,
one written behind the other, is therefore what it reports for each of them (`diagnose_append`).
-/
import Mathlib
import FishScript.Proofs.Grammar.Folding
import FishScript.Proofs.Rules.Anchors
import FishScript.Proofs.Tree.Shifting

namespace FishScript

/-! ## Texts of shifted nodes -/

/-- The text of the node stands in another source, `k` bytes further on. -/
def Node.Moves (k : Nat) (source source' : Text) (n : Node) : Prop :=
  (n.span.shift k).text? source' = n.span.text? source

/-- The finding is made in another source at the shifted node. The node that holds it is looked at
only for what concerns variables. -/
structure Finding.Moves (i k : Nat) (f f' : Finding) : Prop where
  node : f'.node = f.node.shift i k
  code : f'.code = f.code
  parent : f.code.family = .variables → f'.parent = f.parent.map (Node.shift i k)

/-- What the rules see of the site they see of the shifted node in its site: all of it, or, if the
node is no definition and stands in no function, only what a command runs into. -/
structure Site.Moves (i k : Nat) (s s' : Site) : Prop where
  node : s'.node = s.node.shift i k
  kind : s'.parent.map Node.kind = s.parent.map Node.kind
  after : s.node.kind = .command ∨ s.node.kind = .pipeline →
    Reachability.trailing true s'.after =
      (Reachability.trailing true s.after).map (Node.shift i k)
  before : (s'.parent = s.parent.map (Node.shift i k) ∧ s'.before = s.before.map (Node.shift i k)) ∨
    s.node.kind ≠ .variableDefinition ∧ s.parent.any (·.kind == .functionDefinition) = false

section Rules

variable {i k : Nat} {source source' : Text} {n : Node} {ns : List Node} {s s' : Site}

lemma Site.Moves.parent_any (hs : s.Moves i k s') (P : NodeKind → Bool) :
    s'.parent.any (fun p => P p.kind) = s.parent.any fun p => P p.kind := by
  have hmap : ∀ p? : Option Node, (p?.any fun p => P p.kind) = (p?.map Node.kind).any P :=
    fun p? => by cases p? <;> rfl
  rw [hmap, hs.kind, ← hmap]

namespace Node

lemma text_shift (h : n.Moves k source source') : (n.shift i k).text source' = n.text source := by
  rw [text, span_shift, h, text]

lemma find?_shift {P P' : Node → Bool} (h : ∀ n ∈ ns, P' (n.shift i k) = P n) :
    (ns.map (Node.shift i k)).find? P' = (ns.find? P).map (Node.shift i k) := by
  induction ns with
  | nil => rfl
  | cons n ns ih =>
    obtain ⟨hn, hns⟩ := List.forall_mem_cons.1 h
    rw [List.map_cons, List.find?_cons, List.find?_cons, hn, ih hns]
    split <;> rfl

lemma keywords_shift (h : ∀ c ∈ n.children, c.Moves k source source') :
    (n.shift i k).keywords source' =
      (n.keywords source).map fun x => (x.1.shift i k, x.2) := by
  have hkind : (fun c : Node => c.kind == .keyword) ∘ Node.shift i k = (·.kind == .keyword) := by
    funext c
    simp
  rw [keywords, keywords, children_shift, List.filter_map, hkind, List.map_map, List.map_map]
  refine List.map_congr_left fun c hc => ?_
  simp only [Function.comp, text_shift (h c (List.mem_filter.1 hc).1)]

end Node

/-! ## The rules one by one -/

namespace Balance

lemma opener?_shift (h : ∀ c ∈ n.children, c.Moves k source source') :
    opener? (n.shift i k) source' = opener? n source := by
  rw [opener?, opener?, Node.keywords_shift h, List.map_map]
  rfl

lemma endsWithEnd_shift (h : ∀ c ∈ n.children, c.Moves k source source') :
    endsWithEnd (n.shift i k) source' = endsWithEnd n source := by
  rw [endsWithEnd_eq, endsWithEnd_eq, Node.children_shift, List.getLast?_map]
  cases hlast : n.children.getLast? with
  | none => rfl
  | some c =>
    have hc := h c (List.mem_of_getLast? hlast)
    simp only [Option.map_some, Option.any_some, Node.isKeyword, Node.kind_shift,
      Node.text_shift hc]

lemma unmatchedEnd?_shift (ks : List (Node × Text)) (depth : Nat) :
    unmatchedEnd? depth (ks.map fun x => (x.1.shift i k, x.2)) =
      (unmatchedEnd? depth ks).map (Node.shift i k) := by
  induction ks generalizing depth with
  | nil => rfl
  | cons x ks ih =>
    obtain ⟨n, w⟩ := x
    rw [List.map_cons]
    simp only [unmatchedEnd?]
    split
    · exact ih (depth + 1)
    · split
      · cases depth with
        | zero => rfl
        | succ d => exact ih d
      · exact ih depth

lemma rule_moves (hs : s.Moves i k s') (h : ∀ c ∈ s.node.children, c.Moves k source source') :
    List.Forall₂ (Finding.Moves i k) (rule source s) (rule source' s') := by
  have hhere : ∀ code, code.family = .blocks →
      (Finding.here s code).Moves i k (Finding.here s' code) := fun code hcode =>
    ⟨hs.node, rfl, fun hfamily => by rw [Finding.here, hcode] at hfamily; cases hfamily⟩
  have herror : (s.node.shift i k).isError = s.node.isError := by
    rw [Node.isError, Node.kind_shift, Node.isError]
  rw [rule, rule, hs.node, herror, opener?_shift h, endsWithEnd_shift h, Node.keywords_shift h,
    unmatchedEnd?_shift]
  split
  · exact .nil
  · split
    · exact .cons (hhere .missingEnd rfl) .nil
    · cases unmatchedEnd? 0 (s.node.keywords source) with
      | none => exact .cons (hhere .syntaxError rfl) .nil
      | some n => exact .cons ⟨rfl, rfl, fun hfamily => by cases hfamily⟩ .nil

end Balance

namespace Variables

lemma optionsBefore_shift (h : s'.before = s.before.map (Node.shift i k)) :
    optionsBefore s' = (optionsBefore s).map (Node.shift i k) := by
  have hnamed : Node.isNamed ∘ Node.shift i k = Node.isNamed := by
    funext n
    simp
  have hname : (fun n : Node => n.field != some .name) ∘ Node.shift i k =
      (·.field != some .name) := by
    funext n
    simp
  have hoption : (fun n : Node => n.kind == .option) ∘ Node.shift i k = (·.kind == .option) := by
    funext n
    simp
  rw [optionsBefore, optionsBefore, h, List.filter_map, hnamed, List.takeWhile_map, hname,
    List.filter_map, hoption, List.map_reverse]

lemma rule_moves (hs : s.Moves i k s') (hnode : s.node.Moves k source source')
    (h : ∀ n ∈ s.before, n.Moves k source source') :
    List.Forall₂ (Finding.Moves i k) (rule source s) (rule source' s') := by
  by_cases hk : s.node.kind = .variableDefinition
  · -- the whole site of a definition has moved
    obtain ⟨hparent, hbefore⟩ : s'.parent = s.parent.map (Node.shift i k) ∧
        s'.before = s.before.map (Node.shift i k) := by
      obtain h | ⟨hne, -⟩ := hs.before
      · exact h
      · exact absurd hk hne
    have hflag : ∀ P : Text → Bool,
        (optionsBefore s').find? (fun f => P (f.text source')) =
          ((optionsBefore s).find? fun f => P (f.text source)).map (Node.shift i k) := by
      intro P
      rw [optionsBefore_shift hbefore]
      refine Node.find?_shift fun n hn => ?_
      have hmem : n ∈ s.before := by
        have hn := (List.mem_filter.1 (List.mem_reverse.1 hn)).1
        exact (List.mem_filter.1 ((List.takeWhile_sublist _).subset hn)).1
      rw [Node.text_shift (h n hmem)]
    have hbeside : ∀ flag code, (Finding.beside s flag code).Moves i k
        (Finding.beside s' (flag.shift i k) code) := fun _ _ => ⟨rfl, rfl, fun _ => hparent⟩
    rw [rule, rule, hs.node, Node.kind_shift, Node.text_shift hnode, if_neg (by simp [hk]),
      if_neg (by simp [hk])]
    dsimp only
    rw [hflag isUniversal, hflag isPathFlag]
    refine List.rel_append ?_ ?_
    · cases (optionsBefore s).find? fun f => isUniversal (f.text source) with
      | none => exact .nil
      | some flag => exact .cons (hbeside flag _) .nil
    · cases (optionsBefore s).find? fun f => isPathFlag (f.text source) with
      | none =>
        cases isPathName (s.node.text source) with
        | true => exact .cons ⟨hs.node, rfl, fun _ => hparent⟩ .nil
        | false => exact .nil
      | some flag =>
        cases isPathName (s.node.text source) with
        | true => exact .nil
        | false => exact .cons (hbeside flag _) .nil
  · have hkind : (s.node.kind != .variableDefinition) = true := by simpa using hk
    rw [rule, rule, hs.node, Node.kind_shift, if_pos hkind, if_pos hkind]
    exact .nil

end Variables

mutual

theorem Node.alwaysReturns_shift (i k : Nat) :
    ∀ n : Node, (n.shift i k).alwaysReturns = n.alwaysReturns
  | ⟨id, kind, field, span, children⟩ => by
    have hany : (shiftNodes i k children).any (·.kind == .elseClause) =
        children.any (·.kind == .elseClause) := by
      rw [shiftNodes_eq_map, List.any_map]
      simp [Function.comp_def]
    rw [Node.shift]
    cases kind <;>
      simp only [Node.alwaysReturns, hany, someReturns_shift i k children,
        clausesReturn_shift i k children]

theorem someReturns_shift (i k : Nat) :
    ∀ ns : List Node, someReturns (shiftNodes i k ns) = someReturns ns
  | [] => rfl
  | n :: ns => by
    rw [shiftNodes, someReturns, someReturns, n.alwaysReturns_shift i k, someReturns_shift i k ns,
      Node.isStatement_shift]

theorem clausesReturn_shift (i k : Nat) :
    ∀ ns : List Node, clausesReturn (shiftNodes i k ns) = clausesReturn ns
  | [] => rfl
  | ⟨id, kind, field, span, children⟩ :: ns => by
    rw [shiftNodes, Node.shift, clausesReturn, clausesReturn, someReturns_shift i k children,
      clausesReturn_shift i k ns]

end

namespace Reachability

lemma afterReturn_moves (hs : s.Moves i k s') :
    List.Forall₂ (Finding.Moves i k) (afterReturn source s) (afterReturn source' s') := by
  have hany := hs.parent_any (· == .functionDefinition)
  have hreturns : s.parent.any (·.kind == .functionDefinition) = true →
      someReturns s'.before = someReturns s.before := by
    intro hfunction
    obtain ⟨-, hbefore⟩ | ⟨-, hnone⟩ := hs.before
    · rw [hbefore, ← shiftNodes_eq_map, someReturns_shift]
    · rw [hfunction] at hnone
      cases hnone
  rw [afterReturn, afterReturn, hany, hs.node, Node.isStatement_shift]
  cases hfunction : s.parent.any (·.kind == .functionDefinition) with
  | false => exact .nil
  | true =>
    rw [hreturns hfunction]
    split
    · exact .cons ⟨hs.node, rfl, fun hfamily => by cases hfamily⟩ .nil
    · exact .nil

lemma trailing_shift (joined : Bool) (ns : List Node) :
    trailing joined (ns.map (Node.shift i k)) = (trailing joined ns).map (Node.shift i k) := by
  induction ns generalizing joined with
  | nil => rfl
  | cons n ns ih =>
    rw [List.map_cons, trailing, trailing, Node.kind_shift, Node.isNamed_shift, ih, ih]
    split
    · rfl
    · split
      · rfl
      · split <;> rfl

/-- Nothing behind what ends the statement is run into. -/
lemma trailing_append (joined : Bool) (h : ∃ n ∈ ns, endsStatement n.kind = true)
    (ms : List Node) : trailing joined (ns ++ ms) = trailing joined ns := by
  induction ns generalizing joined with
  | nil => simp at h
  | cons n ns ih =>
    rw [List.cons_append, trailing, trailing]
    split
    case isTrue => rfl
    case isFalse hends =>
      have hrest : ∃ m ∈ ns, endsStatement m.kind = true := by
        obtain ⟨m, hm, hm'⟩ := h
        rcases List.mem_cons.1 hm with rfl | hm
        · exact absurd hm' hends
        · exact ⟨m, hm, hm'⟩
      rw [ih joined hrest, ih false hrest]

/-- Behind a terminator no statement before it runs into anything. -/
lemma trailing_append_of_terminator {init : List Node} {t : Node} (hns : ns = init ++ [t])
    (ht : t.kind = .terminator) {rest : List Node} (hrest : n :: rest <:+ ns)
    (hk : n.kind = .command ∨ n.kind = .pipeline) (rear : List Node) :
    trailing true (rest ++ rear) = trailing true rest := by
  obtain ⟨front, hfront⟩ := hrest
  have hlast : (n :: rest).getLast? = some t := by
    rw [← List.getLast?_append_of_ne_nil front (List.cons_ne_nil n rest), hfront, hns,
      List.getLast?_concat]
  have hmem : t ∈ rest := by
    rcases List.mem_cons.1 (List.mem_of_getLast? hlast) with rfl | hmem
    · rw [ht] at hk
      simp at hk
    · exact hmem
  exact trailing_append true ⟨t, hmem, by rw [ht]; rfl⟩ rear

lemma trailingChain_moves (hs : s.Moves i k s') :
    List.Forall₂ (Finding.Moves i k) (trailingChain source s) (trailingChain source' s') := by
  have hany := hs.parent_any (·.holdsStatements)
  rw [trailingChain, trailingChain, hs.node, Node.kind_shift, hany]
  split
  case isTrue h =>
    rw [hs.after (by simp only [Bool.and_eq_true, Bool.or_eq_true, beq_iff_eq] at h; exact h.1),
      List.map_map, List.forall₂_map_right_iff, List.forall₂_map_left_iff, List.forall₂_same]
    exact fun n _ => ⟨rfl, rfl, fun hfamily => by cases hfamily⟩
  case isFalse => exact .nil

end Reachability

lemma firstFindings_moves {rules : List Rule}
    (h : ∀ rule ∈ rules, List.Forall₂ (Finding.Moves i k) (rule source s) (rule source' s')) :
    List.Forall₂ (Finding.Moves i k) (firstFindings rules source s)
      (firstFindings rules source' s') := by
  induction rules with
  | nil => exact .nil
  | cons rule rules ih =>
    obtain ⟨hrule, hrules⟩ := List.forall_mem_cons.1 h
    rw [firstFindings, firstFindings]
    cases hfound : rule source s with
    | nil =>
      rw [hfound, List.forall₂_nil_left_iff] at hrule
      rw [hrule]
      exact ih hrules
    | cons f fs =>
      rw [hfound] at hrule
      obtain ⟨f', fs', hf, hfs, hfound'⟩ := List.forall₂_cons_left_iff.1 hrule
      rw [hfound']
      exact .cons hf hfs

/-! ## What is reported -/

/-- The diagnostic `k` bytes further on. -/
def Diagnostic.shift (k : Nat) (d : Diagnostic) : Diagnostic := { d with span := d.span.shift k }

namespace Finding

variable {f f' : Finding}

lemma definedName?_shift (hparent : f'.parent = f.parent.map (Node.shift i k))
    (h : ∀ p, f.parent = some p → ∀ c ∈ p.children, c.Moves k source source') :
    Wording.definedName? source' f' = Wording.definedName? source f := by
  rw [Wording.definedName?, Wording.definedName?, hparent]
  cases hp : f.parent with
  | none => rfl
  | some p =>
    have hnamed : (p.shift i k).namedChildren = p.namedChildren.map (Node.shift i k) := by
      rw [Node.namedChildren, Node.namedChildren, Node.children_shift, List.filter_map]
      congr 2
      funext n
      simp
    have hfind : (p.shift i k).namedChildren.find? (·.kind == .variableDefinition) =
        (p.namedChildren.find? (·.kind == .variableDefinition)).map (Node.shift i k) := by
      rw [hnamed]
      exact Node.find?_shift fun n _ => by rw [Node.kind_shift]
    rw [Option.map_some, Option.bind_some, Option.bind_some, hfind]
    cases hfound : p.namedChildren.find? (·.kind == .variableDefinition) with
    | none => rfl
    | some c =>
      have hc : c ∈ p.children := (List.mem_filter.1 (List.mem_of_find?_eq_some hfound)).1
      rw [Option.map_some, Option.map_some, Option.map_some, Node.text_shift (h p hp c hc)]

/-- A finding that has moved is worded as before, unless it is about the name of a function: then
the document has a say. -/
lemma diagnostic_moves (hf : f.Moves i k f') (hnode : f.node.Moves k source source')
    (hbelow : ∀ c ∈ f.node.children, c.Moves k source source')
    (hbeside : f.code.family = .variables →
      ∀ p, f.parent = some p → ∀ c ∈ p.children, c.Moves k source source')
    (hnames : f.code.family ≠ .names) (d d' : Document) :
    f'.diagnostic .standard source' d' = (f.diagnostic .standard source d).shift k := by
  have hmessage : Wording.standard source' d' f' = Wording.standard source d f := by
    have hopener := Balance.opener?_shift (i := i) hbelow
    have hdefined : f.code.family = .variables →
        Wording.definedName? source' f' = Wording.definedName? source f := fun hfamily =>
      definedName?_shift (hf.parent hfamily) (hbeside hfamily)
    rw [Wording.standard, Wording.standard, hf.code, hf.node, Node.text_shift hnode, hopener]
    cases hcode : f.code with
    | duplicateFunctionName | missingAutoloadedFunctionName | privateHelperFunction =>
      -- in the wording of these the document may have a say
      exact absurd (by rw [hcode]; rfl) hnames
    | universalVariable | pathFlag =>
      dsimp only
      rw [hdefined (by rw [hcode]; rfl)]
    | missingEnd | extraEnd | syntaxError | unreachableCode | pathVariable => rfl
  rw [diagnostic, diagnostic, hf.code, hf.node, Node.span_shift, hmessage]
  rfl

end Finding

/-- What the walk finds is not about the name of a function, and if it is about a variable, it is
held by what holds the variable. -/
lemma family_parent_of_mem_firstFindings {f : Finding} (hf : f ∈ firstFindings siteRules source s) :
    f.code.family ≠ .names ∧ (f.code.family = .variables → f.parent = s.parent) := by
  obtain hf | ⟨-, hf | hf | ⟨-, hf⟩⟩ := mem_firstFindings hf
  · rw [Balance.family_of_mem f hf]
    exact ⟨by simp, fun hfamily => by cases hfamily⟩
  · obtain ⟨hfamily, hparent⟩ := Variables.family_parent_of_mem f hf
    rw [hfamily]
    exact ⟨by simp, fun _ => hparent⟩
  · rw [Reachability.family_of_mem_afterReturn f hf]
    exact ⟨by simp, fun hfamily => by cases hfamily⟩
  · rw [Reachability.family_of_mem_trailingChain f hf]
    exact ⟨by simp, fun hfamily => by cases hfamily⟩

/-- The diagnostics of the walk over some sites. -/
def reports (source : Text) (d : Document) (ss : List Site) : List Diagnostic :=
  (ss.flatMap (firstFindings siteRules source)).map (·.diagnostic .standard source d)

/-- At sites that have moved the walk reports the same further on. -/
theorem reports_moves (htext : ∀ n ∈ (rootOf source).preorder, n.Moves k source source')
    {ss ss' : List Site} (hss : ∀ s ∈ ss, s ∈ (rootOf source).sites none [] [])
    (h : List.Forall₂ (Site.Moves i k) ss ss') (d d' : Document) :
    reports source' d' ss' = (reports source d ss).map (Diagnostic.shift k) := by
  have hchildren : ∀ p ∈ (rootOf source).preorder, ∀ c ∈ p.children, c.Moves k source source' :=
    fun p hp c hc => htext c (mem_preorder_of_mem_children hp hc)
  induction h with
  | nil => rfl
  | @cons s s' ss ss' hs h ih =>
    obtain ⟨hmem, hss⟩ := List.forall_mem_cons.1 hss
    -- the siblings of a node are in the tree, below the node that holds it
    have hbefore : ∀ n ∈ s.before, n.Moves k source source' := by
      intro n hn
      obtain ⟨p, hp, -, hnp, -⟩ := Blames.exists_parent hmem hn
      exact hchildren p hp n hnp
    have hnode := Site.node_mem hmem
    have hfound : List.Forall₂ (Finding.Moves i k) (firstFindings siteRules source s)
        (firstFindings siteRules source' s') := by
      refine firstFindings_moves ?_
      simp only [siteRules, List.forall_mem_cons]
      exact ⟨Balance.rule_moves hs (hchildren _ hnode),
        Variables.rule_moves hs (htext _ hnode) hbefore, Reachability.afterReturn_moves hs,
        Reachability.trailingChain_moves hs, List.forall_mem_nil _⟩
    have hfindings : ∀ f ∈ firstFindings siteRules source s, f.node ∈ (rootOf source).preorder ∧
        f.code.family ≠ .names ∧ (f.code.family = .variables → f.parent = s.parent) :=
      fun f hf => ⟨((blames_of_mem_firstFindings hmem).1 f hf).mem_preorder hmem,
        family_parent_of_mem_firstFindings hf⟩
    have hsite : (firstFindings siteRules source' s').map (·.diagnostic .standard source' d') =
        ((firstFindings siteRules source s).map (·.diagnostic .standard source d)).map
          (Diagnostic.shift k) := by
      symm
      rw [List.map_map, ← List.forall₂_eq_eq_eq, List.forall₂_map_left_iff,
        List.forall₂_map_right_iff]
      refine ((List.forall₂_and_left _ _).2 ⟨hfindings, hfound⟩).imp fun f f' h => ?_
      obtain ⟨⟨hfnode, hnames, hparent⟩, hf⟩ := h
      have hbeside : f.code.family = .variables →
          ∀ p, f.parent = some p → ∀ c ∈ p.children, c.Moves k source source' :=
        fun hfamily p hp => hchildren p (Site.parent_mem hmem (hparent hfamily ▸ hp)).1
      have hbelow := hchildren _ hfnode
      exact (Finding.diagnostic_moves hf (htext _ hfnode) hbelow hbeside hnames d d').symm
    rw [reports, List.flatMap_cons, List.map_append, hsite, reports, List.flatMap_cons,
      List.map_append, List.map_append]
    exact congrArg _ (ih hss)

/-! ## Sites of statements -/

lemma Site.shift_moves (i k : Nat) (s : Site) : s.Moves i k (s.shift i k) where
  node := rfl
  kind := by
    rw [Site.shift, Option.map_map]
    congr 1
    funext p
    exact p.kind_shift
  after _ := Reachability.trailing_shift true s.after
  before := .inl ⟨rfl, rfl⟩

/-- Statements of a program have moved when they stand among other statements, unless one of them
runs into what follows. -/
theorem sitesOf_moves {p p' : Node} (hp : p.kind = .program) (hp' : p'.kind = .program)
    (rear : List Node) : ∀ {ns : List Node} (before front : List Node),
    (∀ n ∈ ns, n.kind ≠ .variableDefinition) →
    (∀ n rest, n :: rest <:+ ns → n.kind = .command ∨ n.kind = .pipeline →
      Reachability.trailing true (rest.map (Node.shift i k) ++ rear) =
        (Reachability.trailing true rest).map (Node.shift i k)) →
    ∃ ss, List.Forall₂ (Site.Moves i k) (sitesOf p before ns) ss ∧
      sitesOf p' front (ns.map (Node.shift i k) ++ rear) =
        ss ++ sitesOf p' ((ns.map (Node.shift i k)).reverse ++ front) rear
  | [], before, front, _, _ => ⟨[], .nil, rfl⟩
  | n :: ns, before, front, hdefinition, hafter => by
    obtain ⟨hn, hns⟩ := List.forall_mem_cons.1 hdefinition
    obtain ⟨ss, hmoves, heq⟩ := sitesOf_moves hp hp' rear (n :: before)
      (n.shift i k :: front) hns fun m rest hrest =>
        hafter m rest (hrest.trans (List.suffix_cons n ns))
    have hself : Site.Moves i k ⟨n, some p, before, ns⟩
        ⟨n.shift i k, some p', front, ns.map (Node.shift i k) ++ rear⟩ :=
      ⟨rfl, by rw [Option.map_some, Option.map_some, hp, hp'],
        hafter n ns (List.suffix_refl _), .inr ⟨hn, by simp [hp]⟩⟩
    have hbelow : List.Forall₂ (Site.Moves i k) (sitesOf n [] n.children)
        (sitesOf (n.shift i k) [] (n.shift i k).children) := by
      have hshift := sitesOf_shift i k n.children n []
      rw [List.map_nil, shiftNodes_eq_map, ← Node.children_shift] at hshift
      rw [hshift, List.forall₂_map_right_iff, List.forall₂_same]
      exact fun s _ => s.shift_moves i k
    refine ⟨(n.shift i k).sites (some p') front (ns.map (Node.shift i k) ++ rear) ++ ss, ?_, ?_⟩
    · rw [sitesOf, Node.sites_eq, Node.sites_eq]
      exact List.rel_append (.cons hself hbelow) hmoves
    · rw [List.map_cons, List.cons_append, sitesOf, heq, List.append_assoc, List.reverse_cons,
        List.append_assoc, List.singleton_append]

end Rules

/-! ## Trees of source behind a separator -/

/-- The source parses without an error, holds no bars and ends with a semicolon. -/
structure Concluded (a : Text) : Prop where
  last : a.getLast? = some ';'
  semicolon : (tokens a).getLast?.map (·.kind) = some .semicolon
  pipeless : ∀ tok ∈ tokens a, tok.kind ≠ .pipe
  errorFree : ∀ n ∈ (rootOf a).preorder, n.isError = false

section Trees

variable {a : Text}

/-- No statement of the program sets a variable: commands inside do. -/
lemma kind_ne_variableDefinition {source : Text} {n : Node} (hn : n ∈ (rootOf source).children) :
    n.kind ≠ .variableDefinition := by
  intro hk
  have hcommand := (parent_of_definition (Node.mem_preorder_self _) hn hk).1
  rw [kind_rootOf] at hcommand
  cases hcommand

/-- Source that parses without an error holds no garbage, so it is nested no deeper than the limit
allows. -/
lemma limited_eq_terminals (hfree : ∀ n ∈ (rootOf a).preorder, n.isError = false) :
    limited a = terminals a ∧ ∀ t ∈ terminals a, t.symbol ≠ .garbage := by
  have hgarbage : ∀ t ∈ limited a, t.symbol ≠ .garbage :=
    symbol_ne_garbage (fun t ht => known_of_mem_limited ht) (faults_eq_zero hfree)
  have heq : limited a = terminals a := NestingScan.limitFrom_eq_self_of_ne_garbage hgarbage
  exact ⟨heq, heq ▸ hgarbage⟩

namespace Concluded

lemma terminated (h : Concluded a) : Terminated 0 0 a where
  last c hc := by
    rw [h.last, Option.mem_some_iff] at hc
    exact hc.symm
  recognised tok htok hkind := by
    refine (limited_eq_terminals h.errorFree).2 tok.terminal (List.mem_map_of_mem htok) ?_
    rw [Token.terminal, Token.symbol, hkind]
  semicolon tok htok := by
    have hsemicolon := h.semicolon
    rw [show (tokens a).getLast? = some tok from htok, Option.map_some, Option.some_inj]
      at hsemicolon
    exact hsemicolon

lemma separator (h : Concluded a) :
    terminals a ≠ [] ∧ ∀ t ∈ (terminals a).getLast?, t.symbol = .separator := by
  obtain ⟨tok, htok, hkind⟩ := Option.map_eq_some_iff.1 h.semicolon
  have hlast : (terminals a).getLast? = some tok.terminal := by
    rw [terminals, List.getLast?_map, htok]
    rfl
  refine ⟨fun hnil => ?_, fun t ht => ?_⟩
  · rw [hnil] at hlast
    cases hlast
  · rw [hlast, Option.mem_some_iff] at ht
    rw [← ht, Token.terminal, Token.symbol, hkind]

end Concluded

lemma stop_le_byteLength (hfree : ∀ n ∈ (rootOf a).preorder, n.isError = false) {n : Node}
    (hn : n ∈ (rootOf a).preorder) : n.span.stop ≤ a.byteLength := by
  obtain ⟨children, heq, hfull, hleaves⟩ := parseTerminals_leaves (limited a)
  have hleaf : ∀ l ∈ leavesOf children, l.span.stop ≤ a.byteLength := by
    intro l hl
    obtain ⟨t, ht, hspan, -⟩ := exists_of_forall₂ hleaves l hl
    rw [(limited_eq_terminals hfree).1] at ht
    obtain ⟨tok, htok, rfl⟩ := List.mem_map.1 ht
    obtain ⟨front, rest, hsource, hstart⟩ := mem_tokensFrom htok
    have hstop : l.span.stop = tok.start + tok.text.byteLength := congrArg Span.stop hspan
    rw [hstop, hstart, hsource, Text.byteLength_append, Text.byteLength_append]
    omega
  rw [rootOf, heq] at hn
  cases children with
  | nil =>
    -- a program without statements stands at the start
    rw [List.mem_singleton.1 hn]
    exact Nat.zero_le _
  | cons p ps =>
    exact Phrase.stop_plant_le _ 0 0 (.node (List.cons_ne_nil p ps) hfull) hleaf n hn

/-- The grammar sees of source behind concluded source what it sees of it alone. -/
theorem limited_append (h : Concluded a) (b : Text) :
    limited (a ++ b) = limited a ++ (limited b).map (Terminal.shift a.byteLength) := by
  obtain ⟨hlimited, -⟩ := limited_eq_terminals h.errorFree
  obtain ⟨hne, hseparator⟩ := h.separator
  have hknown : ∀ t ∈ limited a, t.Reads a ∧ t.Known (garbagePlaces a) :=
    fun t ht => known_of_mem_limited ht
  have hzero : ∀ c, (parseTerminals (limited a)).faults a c = 0 :=
    faults_eq_zero h.errorFree
  rw [hlimited] at hknown hzero
  rw [limited, terminals_append h.terminated,
    limitNesting_append hknown hzero (symbol_ne_pipe h.pipeless) hlimited hseparator hne, hlimited]
  exact congrArg _ (limitFrom_shift a.byteLength (terminals b) .initial 0 none)

lemma children_rootOf {children : List Phrase}
    (h : parseTerminals (limited a) = .node .program none children) :
    (rootOf a).children = plantAll 1 0 children ∧
      (rootOf a).preorder.length - 1 = sizeOfAll children := by
  have hids := congrArg List.length ((parseTerminals (limited a)).map_id_plant 0 0)
  rw [List.length_map, List.length_range'] at hids
  rw [rootOf, hids, h]
  exact ⟨rfl, Nat.add_sub_cancel _ 1⟩

/-- The tree of source behind concluded source holds the statements of both. -/
theorem children_rootOf_append (h : Concluded a) (b : Text) :
    (∃ init t, (rootOf a).children = init ++ [t] ∧ t.kind = .terminator) ∧
      (rootOf (a ++ b)).children = (rootOf a).children ++
        (rootOf b).children.map
          (Node.shift ((rootOf a).preorder.length - 1) a.byteLength) := by
  have hlimited := (limited_eq_terminals h.errorFree).1
  obtain ⟨hne, hseparator⟩ := h.separator
  rw [← hlimited] at hne hseparator
  obtain ⟨init, span, children, ha, hb, hab⟩ := parseTerminals_append
    (fun t ht => known_of_mem_limited ht) (faults_eq_zero h.errorFree) hseparator hne a.byteLength
    (limited b)
  rw [← limited_append h b] at hab
  have hfull : ∀ p ∈ children, p.Full := by
    obtain ⟨children', hb', hfull, -⟩ := parseTerminals_leaves (limited b)
    rw [hb] at hb'
    injection hb' with _ _ hchildren
    exact hchildren ▸ hfull
  obtain ⟨hchildren, hsize⟩ := children_rootOf ha
  rw [hsize, hchildren, (children_rootOf hb).1, (children_rootOf hab).1, plantAll_append _
    (children.map _)]
  constructor
  · rw [plantAll_append]
    exact ⟨_, _, rfl, rfl⟩
  · -- the numbers of the second source go on where those of the first one end
    have hshift := plantAll_shift (sizeOfAll (init ++ [.leaf .terminator none span]))
      a.byteLength children 1 0 (reachOfAll 0 (init ++ [.leaf .terminator none span])) hfull
    rw [shiftPhrases_eq_map, shiftNodes_eq_map] at hshift
    rw [hshift]

/-! ## What the walk reports of source behind a separator -/

/-- The walk finds nothing at a program, so it reports what it finds below. -/
lemma reports_sites {root : Node} (hk : root.kind = .program) (source : Text) (d : Document) :
    reports source d (root.sites none [] []) =
      reports source d (sitesOf root [] root.children) := by
  have hnone : firstFindings siteRules source ⟨root, none, [], []⟩ = [] := by
    have hbalance : Balance.rule source ⟨root, none, [], []⟩ = [] :=
      Balance.rule_of_not_isError (by simp [Node.isError, hk])
    have hvariables : Variables.rule source ⟨root, none, [], []⟩ = [] :=
      Variables.rule_of_ne (by simp [hk])
    have hreturn : Reachability.afterReturn source ⟨root, none, [], []⟩ = [] := if_neg (by simp)
    have hchain : Reachability.trailingChain source ⟨root, none, [], []⟩ = [] := if_neg (by simp)
    rw [siteRules, firstFindings, hbalance, firstFindings, hvariables, firstFindings, hreturn,
      firstFindings, hchain, firstFindings]
  rw [Node.sites_eq, reports, List.flatMap_cons, hnone, List.nil_append, reports]

lemma filter_diagnose (source : Text) {d : Document} (hd : d.check = .ok ()) :
    ∃ ds, (Tree.mk source [rootOf source]).diagnose d = .ok ds ∧
      ds.filter (·.code.family != .names) =
        reports source d (sitesOf (rootOf source) [] (rootOf source).children) := by
  refine ⟨_, Tree.diagnose_eq source _ hd, ?_⟩
  have hnaming : ((Tree.mk source [rootOf source]).namingFindings (rootOf source) d).filter
      (·.code.family != .names) = [] :=
    List.filter_eq_nil_iff.2 fun f hf => by simp [Naming.family_of_mem _ _ f hf]
  have hwalk : ((Tree.mk source [rootOf source]).walkFindings (rootOf source)).filter
      (·.code.family != .names) =
        (Tree.mk source [rootOf source]).walkFindings (rootOf source) := by
    refine List.filter_eq_self.2 fun f hf => ?_
    obtain ⟨s, -, hf⟩ := List.mem_flatMap.1 hf
    simpa using (family_parent_of_mem_firstFindings hf).1
  rw [← reports_sites (kind_rootOf source), List.filter_map]
  change (List.filter (fun f : Finding => f.code.family != .names) _).map _ = _
  rw [List.filter_append, hnaming, hwalk, List.nil_append]
  rfl

/-- The sites of two sources, the first of which is concluded, are those of each of them. -/
lemma sites_append (h : Concluded a) (b : Text) :
    ∃ ss ss', List.Forall₂ (Site.Moves 0 0) (sitesOf (rootOf a) [] (rootOf a).children) ss ∧
      List.Forall₂ (Site.Moves ((rootOf a).preorder.length - 1) a.byteLength)
        (sitesOf (rootOf b) [] (rootOf b).children) ss' ∧
      sitesOf (rootOf (a ++ b)) [] (rootOf (a ++ b)).children = ss ++ ss' := by
  obtain ⟨⟨init, t, ht, hterminator⟩, hchildren⟩ :=
    children_rootOf_append h b
  generalize (rootOf a).preorder.length - 1 = i at hchildren ⊢
  -- no statement of the first source runs into the second one, the separator being between them
  obtain ⟨ss, hmoves, hsites⟩ := sitesOf_moves (i := 0) (k := 0) (kind_rootOf a)
    (kind_rootOf (a ++ b)) ((rootOf b).children.map (Node.shift i a.byteLength)) [] []
    (fun n hn => kind_ne_variableDefinition hn) fun n rest hrest hk => by
      rw [map_shift_zero, map_shift_zero]
      exact Reachability.trailing_append_of_terminator ht hterminator hrest hk _
  obtain ⟨ss', hmoves', hsites'⟩ := sitesOf_moves (i := i) (k := a.byteLength) (kind_rootOf b)
    (kind_rootOf (a ++ b)) [] [] (rootOf a).children.reverse
    (fun n hn => kind_ne_variableDefinition hn) fun n rest _ _ => by
      rw [List.append_nil]
      exact Reachability.trailing_shift true rest
  rw [map_shift_zero, List.append_nil] at hsites
  rw [List.append_nil, sitesOf, List.append_nil] at hsites'
  exact ⟨ss, ss', hmoves, hmoves', by rw [hchildren, hsites, hsites']⟩

/-- What the walk reports of two sources, the first of which is concluded, is what it reports of
each of them. -/
theorem reports_append (h : Concluded a) (b : Text) (d d₁ d₂ : Document) :
    reports (a ++ b) d (sitesOf (rootOf (a ++ b)) [] (rootOf (a ++ b)).children) =
      reports a d₁ (sitesOf (rootOf a) [] (rootOf a).children) ++
        (reports b d₂ (sitesOf (rootOf b) [] (rootOf b).children)).map
          (Diagnostic.shift a.byteLength) := by
  obtain ⟨ss, ss', hmoves, hmoves', hsites⟩ := sites_append h b
  have hmem : ∀ source, ∀ s ∈ sitesOf (rootOf source) [] (rootOf source).children,
      s ∈ (rootOf source).sites none [] [] := by
    intro source s hs
    rw [Node.sites_eq]
    exact List.mem_cons_of_mem _ hs
  have htext : ∀ n ∈ (rootOf a).preorder, n.Moves 0 a (a ++ b) := fun n hn =>
    Span.text?_append (stop_le_byteLength h.errorFree hn) b
  have htext' : ∀ n ∈ (rootOf b).preorder, n.Moves a.byteLength b (a ++ b) := fun n _ =>
    Span.text?_shift n.span a b
  have hstay : ∀ ds : List Diagnostic, ds.map (Diagnostic.shift 0) = ds := List.map_id
  rw [hsites, reports, List.flatMap_append, List.map_append]
  have hfirst := reports_moves htext (hmem a) hmoves d₁ d
  have hsecond := reports_moves htext' (hmem b) hmoves' d₂ d
  rw [hstay] at hfirst
  exact congrArg₂ (· ++ ·) hfirst hsecond

end Trees

/-- When a source without bars parses without an error and ends with a semicolon, what follows it is
parsed and judged as it would be alone: the program holds the statements of both, and all
diagnostics but those about names of functions are those of both, each where it stands. -/
theorem diagnose_append {a : Text} {rootA : Node} (hlast : a.getLast? = some ';')
    (hsemicolon : (tokens a).getLast?.map (·.kind) = some .semicolon)
    (hpipe : ∀ tok ∈ tokens a, tok.kind ≠ .pipe) (hparse : parse a = .ok ⟨a, [rootA]⟩)
    (hfree : ∀ n ∈ rootA.preorder, n.isError = false) (b : Text) :
    ∃ rootB root, parse b = .ok ⟨b, [rootB]⟩ ∧ parse (a ++ b) = .ok ⟨a ++ b, [root]⟩ ∧
      (rootA.kind = .program ∧ rootB.kind = .program ∧ root.kind = .program) ∧
      root.children = rootA.children ++
        rootB.children.map (Node.shift (rootA.preorder.length - 1) a.byteLength) ∧
      ∀ dA dB d : Document, dA.check = .ok () → dB.check = .ok () → d.check = .ok () →
        ∃ dsA dsB ds, (Tree.mk a [rootA]).diagnose dA = .ok dsA ∧
          (Tree.mk b [rootB]).diagnose dB = .ok dsB ∧
          (Tree.mk (a ++ b) [root]).diagnose d = .ok ds ∧
          ds.filter (·.code.family != .names) =
            dsA.filter (·.code.family != .names) ++
              (dsB.filter (·.code.family != .names)).map (Diagnostic.shift a.byteLength) := by
  obtain rfl := eq_rootOf_of_parse hparse
  have hconcluded : Concluded a := ⟨hlast, hsemicolon, hpipe, hfree⟩
  refine ⟨rootOf b, rootOf (a ++ b), parse_eq b, parse_eq (a ++ b),
    ⟨kind_rootOf a, kind_rootOf b, kind_rootOf (a ++ b)⟩,
    (children_rootOf_append hconcluded b).2, fun dA dB d hA hB hd => ?_⟩
  obtain ⟨dsA, hdsA, hwalkA⟩ := filter_diagnose a hA
  obtain ⟨dsB, hdsB, hwalkB⟩ := filter_diagnose b hB
  obtain ⟨ds, hds, hwalk⟩ := filter_diagnose (a ++ b) hd
  refine ⟨dsA, dsB, ds, hdsA, hdsB, hds, ?_⟩
  rw [hwalk, hwalkA, hwalkB]
  exact reports_append hconcluded b d dA dB

/-- A source without errors that ends with a semicolon. -/
def completeScript : Text :=
  "function f; return; echo $b; end; if a; set -U B_PATH 1; end;".toList

/-- A source with errors of all sorts, which goes on where another source ends. -/
def brokenScript : Text := "and c; set --path D 1; end x | d; begin".toList

/-- The diagnostics of one source behind the other. -/
theorem diagnose_append_brokenScript :
    completeScript.getLast? = some ';' ∧
    (tokens completeScript).getLast?.map (·.kind) = some .semicolon ∧
    (∀ tok ∈ tokens completeScript, tok.kind ≠ .pipe) ∧
    Document.anonymous.check = .ok () ∧
    ∃ rootA, parse completeScript = .ok ⟨completeScript, [rootA]⟩ ∧
      (∀ n ∈ rootA.preorder, n.isError = false) ∧
      ∃ rootB root dsB ds, parse brokenScript = .ok ⟨brokenScript, [rootB]⟩ ∧
        parse (completeScript ++ brokenScript) = .ok ⟨completeScript ++ brokenScript, [root]⟩ ∧
        root.children = rootA.children ++ rootB.children.map (Node.shift 26 61) ∧
        (Tree.mk brokenScript [rootB]).diagnose .anonymous = .ok dsB ∧
        (Tree.mk (completeScript ++ brokenScript) [root]).diagnose .anonymous = .ok ds ∧
        dsB.map (·.code) = [.pathFlag, .extraEnd, .syntaxError, .missingEnd] ∧
        (ds.filter (·.code.family != .names)).drop 3 = dsB.map (Diagnostic.shift 61) := by
  have hlast : completeScript.getLast? = some ';' := by decide +kernel
  have hsemicolon : (tokens completeScript).getLast?.map (·.kind) = some .semicolon := by
    decide +kernel
  have hpipe : ∀ tok ∈ tokens completeScript, tok.kind ≠ .pipe := by decide +kernel
  have hall : (rootOf completeScript).preorder.all (!·.isError) = true := by decide +kernel
  have hfree : ∀ n ∈ (rootOf completeScript).preorder, n.isError = false := by
    simpa using hall
  have hcheck : Document.anonymous.check = .ok () := rfl
  obtain ⟨rootB, root, hparseB, hparse, -, hchildren, hreports⟩ :=
    diagnose_append hlast hsemicolon hpipe (parse_eq completeScript) hfree brokenScript
  obtain ⟨dsA, dsB, ds, hdsA, hdsB, hds, hfilter⟩ := hreports _ _ _ hcheck hcheck hcheck
  obtain rfl := eq_rootOf_of_parse hparseB
  have hsize : (rootOf completeScript).preorder.length - 1 = 26 := by decide +kernel
  have hbytes : completeScript.byteLength = 61 := by decide +kernel
  have hlength : ((Tree.mk completeScript [rootOf completeScript]).diagnose
      .anonymous).toOption.map (fun ds => (ds.filter (·.code.family != .names)).length) =
        some 3 := by
    decide +kernel
  have hcodes : ((Tree.mk brokenScript [rootOf brokenScript]).diagnose
      .anonymous).toOption.map (·.map (·.code)) =
        some [.pathFlag, .extraEnd, .syntaxError, .missingEnd] := by
    decide +kernel
  rw [hdsA] at hlength
  rw [hdsB] at hcodes
  have hlength : (dsA.filter (·.code.family != .names)).length = 3 := Option.some_inj.1 hlength
  have hcodes : dsB.map (·.code) = [.pathFlag, .extraEnd, .syntaxError, .missingEnd] :=
    Option.some_inj.1 hcodes
  have hwalk : dsB.filter (·.code.family != .names) = dsB := by
    refine List.filter_eq_self.2 fun d hd => ?_
    have hcode : d.code ∈ dsB.map (·.code) := List.mem_map_of_mem hd
    have hnone : ∀ c ∈ [Code.pathFlag, .extraEnd, .syntaxError, .missingEnd],
        (c.family != .names) = true := by decide
    rw [hcodes] at hcode
    exact hnone d.code hcode
  rw [hsize, hbytes] at hchildren
  rw [hwalk, hbytes] at hfilter
  refine ⟨hlast, hsemicolon, hpipe, hcheck, rootOf completeScript, parse_eq completeScript, hfree,
    rootOf brokenScript, root, dsB, ds, hparseB, hparse, hchildren, hdsB, hds, hcodes, ?_⟩
  rw [hfilter, ← hlength, List.drop_left]

end FishScript
