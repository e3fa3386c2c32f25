/-
# Names judged on the walk

A pass judges the names of all functions before it walks. A pass of one walk, which asks the rule
for names at the node of each name, behind the rule for blocks, makes the same findings and sees the
same names (`validate_oneWalk`): the walk meets the names in their order, since only leaves come
before a name; at a name no other rule finds or remembers anything; and the rule for names hears of
nothing but earlier names.
-/
import Mathlib
import FishScript.Proofs.Grammar.Headers
import FishScript.Proofs.Rules.Validation

namespace FishScript

/-! ## A pass of one walk -/

namespace Naming

/-- The function that a node defines whose child is its name. -/
def namedBy (p n : Node) : Option NamedFunction :=
  if p.kind == .functionDefinition && (p.childByField? .name).any (·.id == n.id) then some ⟨p, n⟩
  else none

end Naming

/-- The function whose name stands at a site. -/
def Site.named? (s : Site) : Option Naming.NamedFunction := s.parent.bind (Naming.namedBy · s.node)

namespace Detector

/-- The rule for names, at the names of functions. -/
def ofNames (d : Document) : Detector := fun source s seen =>
  match s.named? with
  | some g => Naming.check source d g seen
  | none => ([], seen)

/-- All rules, the most important first. -/
def all (d : Document) : List Detector :=
  [ofRule Balance.rule, ofNames d, ofVariables, ofRule Reachability.afterReturn,
    ofRule Reachability.trailingChain]

end Detector

/-- A pass over a tree that judges the names of functions on its walk. -/
def Tree.validateInOneWalk (t : Tree) (document : Document) (wording : Wording) :
    Except Refusal Pass := do
  document.check
  let root ← t.root
  (root.sites none [] []).foldlM
    (t.visit document wording (Detector.firstMatch (Detector.all document) t.source)) ⟨[], .empty⟩

/-! ## The names on the walk -/

section Order

open Naming

/-- Only leaves come before the name of a node, and its children have numbers of their own. -/
structure Node.NamesFirst (n : Node) : Prop where
  lead : NamesLead n.parts
  ids : (n.children.map Node.id).Nodup

/-- The function that a node defines, if it has a name. -/
def Naming.ownName (p : Node) : Option NamedFunction :=
  if p.kind == .functionDefinition then (p.childByField? .name).map (NamedFunction.mk p) else none

variable {p n : Node}

lemma Naming.isSome_namedBy : (namedBy p n).isSome ↔
    p.kind = .functionDefinition ∧ ∃ c, p.childByField? .name = some c ∧ c.id = n.id := by
  unfold namedBy
  cases p.childByField? .name <;> simp

lemma Naming.namedFunctions_cons (n : Node) (ns : List Node) :
    namedFunctions (n :: ns) = (ownName n).toList ++ namedFunctions ns := by
  rw [namedFunctions, List.filter_cons, ownName]
  split
  · cases hc : n.childByField? .name with
    | none => rw [List.filterMap_cons_none (by rw [hc]; rfl)]; rfl
    | some c => rw [List.filterMap_cons_some (by rw [hc]; rfl)]; rfl
  · rfl

lemma Naming.namedFunctions_append (ns ms : List Node) :
    namedFunctions (ns ++ ms) = namedFunctions ns ++ namedFunctions ms := by
  rw [namedFunctions, List.filter_append, List.filterMap_append]
  rfl

lemma Naming.namedFunctions_preorderAll (ns : List Node) :
    namedFunctions (preorderAll ns) = ns.flatMap fun n => namedFunctions n.preorder := by
  induction ns with
  | nil => rfl
  | cons n ns ih => rw [preorderAll, namedFunctions_append, ih, List.flatMap_cons]

lemma Naming.namedFunctions_leaf (h : n.part.leaf?.isSome) : namedFunctions n.preorder = [] := by
  have hnil : n.children = [] := by
    by_contra hne
    simp [Node.part, hne] at h
  have hown : ownName n = none := by
    simp [ownName, Node.childByField?, Node.namedChildren, hnil]
  rw [n.preorder_eq, namedFunctions_cons, hown, hnil]
  rfl

/-- Only leaves stand before the name of a function, and no other child has its number. -/
lemma Node.NamesFirst.children_eq (h : p.NamesFirst) {c : Node}
    (hc : p.childByField? .name = some c) : ∃ before after, p.children = before ++ c :: after ∧
      (∀ n ∈ before, n.part.leaf?.isSome) ∧ ∀ n ∈ before ++ after, c.id ≠ n.id := by
  obtain ⟨hmem, hfield⟩ := mem_of_childByField? hc
  obtain ⟨before, after, hchildren⟩ := List.append_of_mem hmem
  have hlead := h.lead
  have hids := h.ids
  rw [Node.parts, hchildren, List.map_append, NamesLead, List.pairwise_append] at hlead
  rw [hchildren, List.map_append, List.nodup_append] at hids
  obtain ⟨-, hafter, hbefore⟩ := hids
  refine ⟨before, after, hchildren, fun n hn => ?_, List.forall_mem_append.2 ⟨fun n hn => ?_,
    fun n hn heq => ?_⟩⟩
  · exact hlead.2.2 n.part (List.mem_map_of_mem hn) c.part List.mem_cons_self hfield
  · exact (hbefore n.id (List.mem_map_of_mem hn) c.id List.mem_cons_self).symm
  · exact (List.nodup_cons.1 hafter).1 (heq ▸ List.mem_map_of_mem hn)

/-- The functions in a node are those met at its children, each at the node of its name. -/
lemma Node.NamesFirst.flatMap_children (h : p.NamesFirst) :
    (p.children.flatMap fun n => (namedBy p n).toList ++ namedFunctions n.preorder) =
      namedFunctions p.preorder := by
  rw [p.preorder_eq, namedFunctions_cons, namedFunctions_preorderAll]
  by_cases hnamed : p.kind = .functionDefinition ∧ (p.childByField? .name).isSome
  · obtain ⟨hk, hsome⟩ := hnamed
    obtain ⟨c, hc⟩ := Option.isSome_iff_exists.1 hsome
    obtain ⟨before, after, hchildren, hleaves, hother⟩ := h.children_eq hc
    have hnone : ∀ n ∈ before ++ after, namedBy p n = none := fun n hn => by
      simp [namedBy, hc, hother n hn]
    have hname : namedBy p c = some ⟨p, c⟩ := by simp [namedBy, hc, hk]
    have hown : ownName p = some ⟨p, c⟩ := by simp [ownName, hc, hk]
    -- what is before the name defines nothing
    have hfront : (before.flatMap fun n => namedFunctions n.preorder) = [] :=
      List.flatMap_eq_nil_iff.2 fun n hn => namedFunctions_leaf (hleaves n hn)
    have hskip {ns : List Node} (hns : ns ⊆ before ++ after) :
        (ns.flatMap fun n => (namedBy p n).toList ++ namedFunctions n.preorder) =
          ns.flatMap fun n => namedFunctions n.preorder :=
      List.flatMap_congr fun n hn => by rw [hnone n (hns hn)]; rfl
    rw [hchildren, List.flatMap_append, List.flatMap_append, List.flatMap_cons,
      List.flatMap_cons, hskip (List.subset_append_left _ _),
      hskip (List.subset_append_right _ _), hfront, hname, hown]
    rfl
  · have hown : ownName p = none := by
      unfold ownName
      split <;> simp_all
    have hnone (n : Node) : namedBy p n = none := by
      unfold namedBy
      cases hc : p.childByField? .name <;> simp_all
    simp [hown, hnone]

/-- On the sites of some children each is asked for its name before what is below it. -/
lemma filterMap_sitesOf {ns : List Node} (before : List Node)
    (hbelow : ∀ n ∈ ns, (sitesOf n [] n.children).filterMap Site.named? =
      namedFunctions n.preorder) :
    (sitesOf p before ns).filterMap Site.named? =
      ns.flatMap fun n => (namedBy p n).toList ++ namedFunctions n.preorder := by
  induction ns generalizing before with
  | nil => rfl
  | cons n ns ih =>
    obtain ⟨hn, hns⟩ := List.forall_mem_cons.1 hbelow
    rw [sitesOf, List.filterMap_append, ih _ hns, List.flatMap_cons, Node.sites_eq, ← hn]
    have hhead : Site.named? ⟨n, some p, before, ns⟩ = namedBy p n := rfl
    cases hg : namedBy p n with
    | none => rw [List.filterMap_cons_none (hhead.trans hg)]; rfl
    | some g => rw [List.filterMap_cons_some (hhead.trans hg)]; rfl

mutual

/-- Below a node the walk meets the functions in it by their names, in their order. -/
theorem filterMap_named?_below : ∀ {n : Node}, (∀ m ∈ n.preorder, m.NamesFirst) →
    (sitesOf n [] n.children).filterMap Site.named? = namedFunctions n.preorder
  | ⟨id, kind, field, span, children⟩, h => by
    have hbelow : ∀ n ∈ children, (sitesOf n [] n.children).filterMap Site.named? =
        namedFunctions n.preorder :=
      filterMap_named?_belowAll fun m hm => h m (List.mem_cons_of_mem _ hm)
    rw [filterMap_sitesOf _ hbelow]
    exact (h _ List.mem_cons_self).flatMap_children

theorem filterMap_named?_belowAll : ∀ {ns : List Node}, (∀ m ∈ preorderAll ns, m.NamesFirst) →
    ∀ n ∈ ns, (sitesOf n [] n.children).filterMap Site.named? = namedFunctions n.preorder
  | [], _, n, hn => by cases hn
  | m :: ns, h, n, hn => by
    rw [preorderAll, List.forall_mem_append] at h
    rcases List.mem_cons.1 hn with heq | hn
    · rw [heq]
      exact filterMap_named?_below h.1
    · exact filterMap_named?_belowAll h.2 n hn

end

lemma namesFirst_of_mem_preorder {source : Text} (hp : p ∈ (rootOf source).preorder) :
    p.NamesFirst := by
  refine ⟨namesLead_of_mem_preorder hp, ?_⟩
  have hbelow : p.children.Sublist (rootOf source).preorder := by
    refine .trans ?_ (preorder_sublist hp)
    rw [p.preorder_eq]
    exact (sublist_preorderAll p.children).cons p
  exact (hbelow.map Node.id).nodup (nodup_map_id source)

/-- The walk over the tree of a source meets all functions by their names, in their order. -/
theorem filterMap_named?_sites (source : Text) :
    ((rootOf source).sites none [] []).filterMap Site.named? =
      namedFunctions (rootOf source).preorder := by
  rw [Node.sites_eq, List.filterMap_cons_none rfl]
  exact filterMap_named?_below fun _ => namesFirst_of_mem_preorder

end Order

/-! ## The rules on the walk -/

/-- No other rule finds or remembers anything at the site. -/
def Site.Silent (source : Text) (s : Site) : Prop :=
  ∀ detect ∈ Detector.walk, ∀ seen, detect source s seen = ([], seen)

namespace Naming

variable {source : Text} {d : Document}

lemma findings_addVariable (seen : DefinedNames) (x : Text) (gs : List NamedFunction) :
    findings source d (seen.addVariable x) gs = findings source d seen gs := by
  induction gs generalizing seen with
  | nil => rfl
  | cons g gs ih =>
    rw [findings, findings, ← ih (seen.addFunction _)]
    rfl

lemma silent_of_name {s : Site} (hk : s.node.kind = .word) (hname : s.node.field = some .name) :
    s.Silent source := by
  intro detect hdetect seen
  simp only [Detector.walk, List.mem_cons, List.not_mem_nil, or_false] at hdetect
  obtain rfl | rfl | rfl | rfl := hdetect
  · rw [Detector.ofRule, Balance.rule, if_pos (by simp [Node.isError, hk])]
  · rw [Detector.ofVariables, if_pos (by simp [hk])]
  · rw [Detector.ofRule, Reachability.afterReturn, if_neg (by simp [Node.isStatement, hname])]
  · rw [Detector.ofRule, Reachability.trailingChain, if_neg (by simp [hk])]

/-- In the tree of a source no other rule matches the name of a function. -/
theorem silent_of_named {s : Site} (hs : s ∈ (rootOf source).sites none [] [])
    (hg : s.named?.isSome) : s.Silent source := by
  obtain ⟨g, hg⟩ := Option.isSome_iff_exists.1 hg
  obtain ⟨p, hparent, hg⟩ := Option.bind_eq_some_iff.1 hg
  obtain ⟨hp, hchildren⟩ := Site.parent_mem hs hparent
  obtain ⟨-, c, hc, hid⟩ := isSome_namedBy.1 (Option.isSome_of_eq_some hg)
  obtain ⟨hmem, hname⟩ := mem_of_childByField? hc
  have hnode : c = s.node := List.inj_on_of_nodup_map (namesFirst_of_mem_preorder hp).ids hmem
    (by simp [hchildren]) hid
  rw [hnode] at hmem hname
  exact silent_of_name ((arranged_of_mem_preorder hp).names s.node.part
    (List.mem_map_of_mem hmem) hname) hname

end Naming

namespace Detector

variable {source : Text} {s : Site} {d : Document}

lemma firstMatch_of_silent {detectors : List Detector} {seen : DefinedNames}
    (h : ∀ detect ∈ detectors, detect source s seen = ([], seen)) :
    firstMatch detectors source s seen = ([], seen) := by
  induction detectors with
  | nil => rfl
  | cons detect rest ih =>
    obtain ⟨hdetect, hrest⟩ := List.forall_mem_cons.1 h
    rw [firstMatch_cons, hdetect]
    exact ih hrest

lemma firstMatch_all_of_unnamed (hg : s.named? = none) (seen : DefinedNames) :
    firstMatch (all d) source s seen = firstMatch walk source s seen := by
  have hnames (seen : DefinedNames) : ofNames d source s seen = ([], seen) := by
    rw [ofNames, hg]
  rw [all, walk, firstMatch_cons, firstMatch_cons _ _ _ (ofRule Balance.rule),
    firstMatch_cons _ _ _ (ofNames d), hnames]
  rfl

lemma firstMatch_all_of_named {g : Naming.NamedFunction} (hg : s.named? = some g)
    (h : s.Silent source) (seen : DefinedNames) :
    firstMatch (all d) source s seen = Naming.check source d g seen := by
  have hnames : ofNames d source s seen = Naming.check source d g seen := by
    rw [ofNames, hg]
  rw [all, firstMatch_cons, h (ofRule Balance.rule) (by simp [walk])]
  show firstMatch (ofNames d :: _) source s seen = _
  rw [firstMatch_cons, hnames]
  split
  case isFalse => rfl
  case isTrue hnil =>
    rw [firstMatch_of_silent fun detect hdetect => h detect (by simp_all [walk]) _]
    exact Prod.ext (List.isEmpty_iff.1 hnil).symm rfl

lemma family_of_mem_siteRules {f : Finding} (hf : f ∈ firstFindings siteRules source s) :
    f.code.family ≠ .names := by
  rcases mem_firstFindings hf with hf | ⟨-, hf | hf | ⟨-, hf⟩⟩
  · simp [Balance.family_of_mem f hf]
  · simp [Variables.family_of_mem f hf]
  · simp [Reachability.family_of_mem_afterReturn f hf]
  · simp [Reachability.family_of_mem_trailingChain f hf]

lemma firstFindings_of_silent (h : s.Silent source) :
    firstFindings siteRules source s = [] ∧ ∀ seen, seenAt source seen s = seen := by
  have hwalk (seen : DefinedNames) :
      (firstFindings siteRules source s, seenAt source seen s) = ([], seen) := by
    rw [← firstMatch_walk]
    exact firstMatch_of_silent fun detect hdetect => h detect hdetect seen
  exact ⟨congrArg Prod.fst (hwalk .empty), fun seen => congrArg Prod.snd (hwalk seen)⟩

lemma findings_seenAt (seen : DefinedNames) (gs : List Naming.NamedFunction) :
    Naming.findings source d (seenAt source seen s) gs = Naming.findings source d seen gs := by
  unfold seenAt
  split
  · exact Naming.findings_addVariable seen _ gs
  · rfl

lemma foldl_addFunction_seenAt (seen : DefinedNames) (added : List Text) :
    added.foldl .addFunction (seenAt source seen s) =
      seenAt source (added.foldl .addFunction seen) s := by
  unfold seenAt
  split
  · rw [DefinedNames.foldl_addFunction, DefinedNames.foldl_addFunction]
    rfl
  · rfl

variable {ss : List Site}

/-- What one walk finds about names is what is found at the names of the functions that it meets. -/
lemma filter_found_all (h : ∀ s ∈ ss, s.named?.isSome → s.Silent source) (seen : DefinedNames) :
    (Check.found (firstMatch (all d) source) seen ss).filter (·.code.family = .names) =
      Naming.findings source d seen (ss.filterMap Site.named?) := by
  induction ss generalizing seen with
  | nil => rfl
  | cons s ss ih =>
    obtain ⟨hs, hss⟩ := List.forall_mem_cons.1 h
    rw [Check.found, List.filter_append, ih hss]
    cases hg : s.named? with
    | none =>
      rw [firstMatch_all_of_unnamed hg, firstMatch_walk, findings_seenAt,
        List.filterMap_cons_none hg, List.filter_eq_nil_iff.2, List.nil_append]
      exact fun f hf => by simpa using family_of_mem_siteRules hf
    | some g =>
      rw [firstMatch_all_of_named hg (hs (by simp [hg])), List.filterMap_cons_some hg,
        List.filter_eq_self.2]
      · rfl
      · intro f hf
        obtain ⟨code, hcode, rfl⟩ := List.mem_map.1 hf
        exact decide_eq_true (Naming.family_of_mem_codes d seen _ code hcode)

/-- What one walk finds that is not about names is what the other rules find. -/
lemma filter_not_found_all (h : ∀ s ∈ ss, s.named?.isSome → s.Silent source)
    (seen : DefinedNames) :
    (Check.found (firstMatch (all d) source) seen ss).filter (·.code.family ≠ .names) =
      ss.flatMap (firstFindings siteRules source) := by
  induction ss generalizing seen with
  | nil => rfl
  | cons s ss ih =>
    obtain ⟨hs, hss⟩ := List.forall_mem_cons.1 h
    rw [Check.found, List.filter_append, ih hss, List.flatMap_cons]
    cases hg : s.named? with
    | none =>
      rw [firstMatch_all_of_unnamed hg, firstMatch_walk, List.filter_eq_self.2]
      exact fun f hf => by simpa using family_of_mem_siteRules hf
    | some g =>
      have hsilent := hs (by simp [hg])
      rw [firstMatch_all_of_named hg hsilent, (firstFindings_of_silent hsilent).1,
        List.filter_eq_nil_iff.2]
      intro f hf
      obtain ⟨code, hcode, rfl⟩ := List.mem_map.1 hf
      simpa using Naming.family_of_mem_codes d seen _ code hcode

lemma seenAfter_all (h : ∀ s ∈ ss, s.named?.isSome → s.Silent source) (seen : DefinedNames) :
    Check.seenAfter (firstMatch (all d) source) seen ss =
      Check.seenAfter (firstMatch walk source)
        (((ss.filterMap Site.named?).map (·.name.text source)).foldl .addFunction seen) ss := by
  induction ss generalizing seen with
  | nil => rfl
  | cons s ss ih =>
    obtain ⟨hs, hss⟩ := List.forall_mem_cons.1 h
    rw [Check.seenAfter, List.foldl_cons, ← Check.seenAfter, ih hss, Check.seenAfter,
      Check.seenAfter, List.foldl_cons, firstMatch_walk]
    cases hg : s.named? with
    | none =>
      rw [firstMatch_all_of_unnamed hg, firstMatch_walk, foldl_addFunction_seenAt,
        List.filterMap_cons_none hg]
    | some g =>
      have hsilent := hs (by simp [hg])
      rw [firstMatch_all_of_named hg hsilent, (firstFindings_of_silent hsilent).2,
        List.filterMap_cons_some hg]
      rfl

end Detector

/-! ## Both passes -/

namespace Tree

variable {source : Text} {document : Document} {wording : Wording}

/-- Nothing that one walk over the tree of a source finds is unknown to the tree, so the pass is
not refused. -/
lemma validateInOneWalk_eq (hd : document.check = .ok ()) :
    (Tree.mk source [rootOf source]).validateInOneWalk document wording =
      .ok ⟨(Check.found (Detector.firstMatch (Detector.all document) source) .empty
          ((rootOf source).sites none [] [])).map (·.diagnostic wording source document),
        Check.seenAfter (Detector.firstMatch (Detector.all document) source) .empty
          ((rootOf source).sites none [] [])⟩ := by
  have hnumbered : (Tree.mk source [rootOf source]).Numbered := map_id_nodes (parse_eq source)
  have hfound : ∀ s ∈ (rootOf source).sites none [] [], ∀ seen,
      ∀ f ∈ (Detector.firstMatch (Detector.all document) source s seen).1,
        (Tree.mk source [rootOf source]).node f.node.id = .ok f.node := by
    intro s hs seen f hf
    refine hnumbered.node_eq (mem_preorderAll.2 ⟨_, List.mem_singleton_self _, ?_⟩)
    cases hg : s.named? with
    | none =>
      rw [Detector.firstMatch_all_of_unnamed hg, Detector.firstMatch_walk] at hf
      exact mem_preorder_of_mem_firstFindings hs hf
    | some g =>
      rw [Detector.firstMatch_all_of_named hg (Naming.silent_of_named hs (by simp [hg]))] at hf
      refine Naming.mem_preorder_of_mem_check ?_ hf
      rw [← filterMap_named?_sites]
      exact List.mem_filterMap.2 ⟨s, hs, hg⟩
  rw [validateInOneWalk, hd]
  exact foldlM_visit hfound ⟨[], .empty⟩

lemma filter_map_diagnostic (P : Code → Bool) (fs : List Finding) :
    (fs.map (·.diagnostic wording source document)).filter (P ·.code) =
      (fs.filter (P ·.code)).map (·.diagnostic wording source document) := by
  rw [List.filter_map]
  rfl

variable (t : Tree) (root : Node)

lemma filter_findings : (t.namingFindings root document ++ t.walkFindings root).filter
    (·.code.family = .names) = t.namingFindings root document := by
  rw [List.filter_append, List.filter_eq_self.2, List.filter_eq_nil_iff.2, List.append_nil]
  · intro f hf
    obtain ⟨s, -, hf⟩ := List.mem_flatMap.1 hf
    simpa using Detector.family_of_mem_siteRules hf
  · exact fun f hf => decide_eq_true (Naming.family_of_mem _ _ f hf)

lemma filter_not_findings : (t.namingFindings root document ++ t.walkFindings root).filter
    (·.code.family ≠ .names) = t.walkFindings root := by
  rw [List.filter_append, List.filter_eq_nil_iff.2, List.nil_append, List.filter_eq_self.2]
  · intro f hf
    obtain ⟨s, -, hf⟩ := List.mem_flatMap.1 hf
    simpa using Detector.family_of_mem_siteRules hf
  · intro f hf
    simpa using Naming.family_of_mem _ _ f hf

end Tree

/-- A pass over the tree of a source and a pass of one walk hand back the same diagnostics about
names, the same others, both in the same order, and the same names; and at the name of a function
no rule but the one for names finds or remembers anything. -/
theorem validate_oneWalk (source : Text) {document : Document} (hd : document.check = .ok ())
    (wording : Wording) :
    ∃ root p q, parse source = .ok ⟨source, [root]⟩ ∧
      (Tree.mk source [root]).validate document wording = .ok p ∧
      (Tree.mk source [root]).validateInOneWalk document wording = .ok q ∧
      p.diagnostics.filter (·.code.family = .names) =
        q.diagnostics.filter (·.code.family = .names) ∧
      p.diagnostics.filter (·.code.family ≠ .names) =
        q.diagnostics.filter (·.code.family ≠ .names) ∧
      p.names = q.names ∧
      ∀ s ∈ root.sites none [] [], ∀ g, s.parent = some g → g.kind = .functionDefinition →
        g.childByField? .name = some s.node →
          ∀ detect ∈ Detector.walk, ∀ seen, detect source s seen = ([], seen) := by
  have hnumbered : (Tree.mk source [rootOf source]).Numbered := map_id_nodes (parse_eq source)
  have hsilent : ∀ s ∈ (rootOf source).sites none [] [], s.named?.isSome → s.Silent source :=
    fun s hs => Naming.silent_of_named hs
  refine ⟨rootOf source, _, _, parse_eq source, hnumbered.validate_eq hd rfl,
    Tree.validateInOneWalk_eq hd, ?_, ?_, ?_, fun s hs g hparent hk hname => hsilent s hs ?_⟩
  · rw [Tree.filter_map_diagnostic (·.family = .names), Tree.filter_findings,
      Tree.filter_map_diagnostic (·.family = .names), Detector.filter_found_all hsilent,
      filterMap_named?_sites]
    rfl
  · rw [Tree.filter_map_diagnostic (·.family ≠ .names), Tree.filter_not_findings,
      Tree.filter_map_diagnostic (·.family ≠ .names), Detector.filter_not_found_all hsilent]
    rfl
  · rw [Detector.seenAfter_all hsilent, Detector.seenAfter_walk, Node.map_node_sites,
      filterMap_named?_sites]
    rfl
  · rw [Site.named?, hparent]
    exact Naming.isSome_namedBy.2 ⟨hk, _, hname, rfl⟩

/-- A function in another one of the same name, behind a variable, with an `end` too many. -/
def nestedNames : Text := "function f\nset -gU A_PATH\nfunction f\nend\nend\nend".toList

/-- One walk makes the diagnostics in another order. -/
theorem validate_oneWalk_nestedNames :
    (Document.mk none (some "h".toList)).check = .ok () ∧
    ∃ root p q, parse nestedNames = .ok ⟨nestedNames, [root]⟩ ∧
      (Tree.mk nestedNames [root]).validate ⟨none, some "h".toList⟩ .standard = .ok p ∧
      (Tree.mk nestedNames [root]).validateInOneWalk ⟨none, some "h".toList⟩ .standard = .ok q ∧
      p.diagnostics.map (·.code) = [.missingAutoloadedFunctionName, .duplicateFunctionName,
        .privateHelperFunction, .universalVariable, .pathVariable, .extraEnd] ∧
      q.diagnostics.map (·.code) = [.missingAutoloadedFunctionName, .universalVariable,
        .pathVariable, .duplicateFunctionName, .privateHelperFunction, .extraEnd] ∧
      p.names = q.names := by
  have hcheck : (Document.mk none (some "h".toList)).check = .ok () := rfl
  obtain ⟨root, p, q, hparse, hp, hq, -, -, hnames, -⟩ :=
    validate_oneWalk nestedNames hcheck .standard
  obtain rfl := eq_rootOf_of_parse hparse
  have hcodes : ((Tree.mk nestedNames [rootOf nestedNames]).validate
      ⟨none, some "h".toList⟩ .standard).toOption.map (·.diagnostics.map (·.code)) =
        some [.missingAutoloadedFunctionName, .duplicateFunctionName, .privateHelperFunction,
          .universalVariable, .pathVariable, .extraEnd] := by
    decide +kernel
  have hcodes' : ((Tree.mk nestedNames [rootOf nestedNames]).validateInOneWalk
      ⟨none, some "h".toList⟩ .standard).toOption.map (·.diagnostics.map (·.code)) =
        some [.missingAutoloadedFunctionName, .universalVariable, .pathVariable,
          .duplicateFunctionName, .privateHelperFunction, .extraEnd] := by
    decide +kernel
  rw [hp] at hcodes
  rw [hq] at hcodes'
  exact ⟨hcheck, rootOf nestedNames, p, q, hparse, hp, hq, Option.some_inj.1 hcodes,
    Option.some_inj.1 hcodes', hnames⟩

end FishScript
