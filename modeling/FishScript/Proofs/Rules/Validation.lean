/-
# What a pass does

A pass goes on step by step and hands the names it has seen from one check to the next. What is
blamed is always a node of the tree (`mem_preorder_of_mem_firstFindings`), so no step of a pass over
a tree that calls build is refused, and the pass makes the findings of its checks in a row
(`foldlM_visit`). At the name of a function the names seen are those of the functions before it
(`codes_eq_codesAt`). On the walk the rules that are asked after another one miss nothing, because
only errors keep a rule from being asked about a variable (`firstMatch_walk`).
-/
import FishScript.Rules.Validator
import FishScript.Proofs.Rules.Anchors
import FishScript.Proofs.Tree.Links

namespace FishScript

/-! ## Names -/

namespace DefinedNames

variable {names : List Text} {x name : Text}

lemma mem_insert : x ∈ insert name names ↔ x ∈ names ∨ x = name := by
  unfold insert
  split
  case isTrue h =>
    have hmem : name ∈ names := by simpa using h
    constructor
    · exact .inl
    · rintro (hx | rfl)
      · exact hx
      · exact hmem
  case isFalse => simp

lemma nodup_insert (h : names.Nodup) : (insert name names).Nodup := by
  unfold insert
  split
  case isTrue => exact h
  case isFalse hnew =>
    have hnew : name ∉ names := by simpa using hnew
    exact List.nodup_append'.2 ⟨h, List.nodup_singleton _, by simpa using hnew⟩

end DefinedNames

namespace DefinedNames

variable {names : List Text} {x : Text}

lemma mem_foldl_insert {added : List Text} :
    x ∈ added.foldl (fun names name => insert name names) names ↔ x ∈ names ∨ x ∈ added := by
  induction added generalizing names with
  | nil => simp
  | cons name added ih => rw [List.foldl_cons, ih, mem_insert, List.mem_cons, or_assoc]

lemma nodup_foldl_insert {added : List Text} (h : names.Nodup) :
    (added.foldl (fun names name => insert name names) names).Nodup := by
  induction added generalizing names with
  | nil => exact h
  | cons name added ih => exact ih (nodup_insert h)

lemma foldl_addFunction (seen : DefinedNames) (added : List Text) :
    added.foldl addFunction seen =
      ⟨added.foldl (fun names name => insert name names) seen.functionNames,
        seen.variableNames⟩ := by
  induction added generalizing seen with
  | nil => rfl
  | cons name added ih => rw [List.foldl_cons, ih]; rfl

lemma foldl_addVariable (seen : DefinedNames) (added : List Text) :
    added.foldl addVariable seen =
      ⟨seen.functionNames,
        added.foldl (fun names name => insert name names) seen.variableNames⟩ := by
  induction added generalizing seen with
  | nil => rfl
  | cons name added ih => rw [List.foldl_cons, ih]; rfl

end DefinedNames

/-! ## Checks in a row -/

namespace Check

variable {α : Type} (check : Check α)

/-- The findings of a check that is made of one thing after the other. -/
def found (seen : DefinedNames) : List α → List Finding
  | [] => []
  | x :: xs => (check x seen).1 ++ found (check x seen).2 xs

/-- The names seen after it. -/
def seenAfter (seen : DefinedNames) (xs : List α) : DefinedNames :=
  xs.foldl (fun seen x => (check x seen).2) seen

end Check

namespace Tree

variable {α : Type} {t : Tree} {document : Document} {wording : Wording}

lemma emit_eq {found : List Finding} (h : ∀ f ∈ found, t.node f.node.id = .ok f.node)
    (out : List Diagnostic) : t.emit document wording found out =
      .ok (out ++ found.map (·.diagnostic wording t.source document)) := by
  induction found generalizing out with
  | nil => rw [List.map_nil, List.append_nil]; rfl
  | cons f found ih =>
    obtain ⟨hf, hfound⟩ := List.forall_mem_cons.1 h
    have hrest := ih hfound (out ++ [f.diagnostic wording t.source document])
    rw [List.append_assoc, List.singleton_append] at hrest
    rw [List.map_cons, ← hrest, emit, List.foldlM_cons, hf]
    rfl

lemma visit_eq {check : Check α} {x : α} {p : Pass}
    (h : ∀ f ∈ (check x p.names).1, t.node f.node.id = .ok f.node) :
    t.visit document wording check p x =
      .ok ⟨p.diagnostics ++ (check x p.names).1.map (·.diagnostic wording t.source document),
        (check x p.names).2⟩ := by
  show (t.emit document wording (check x p.names).1 p.diagnostics >>= _) = _
  rw [emit_eq h]
  rfl

/-- A pass that is never refused makes the findings of its checks in a row. -/
theorem foldlM_visit {check : Check α} {xs : List α}
    (h : ∀ x ∈ xs, ∀ seen, ∀ f ∈ (check x seen).1, t.node f.node.id = .ok f.node) (p : Pass) :
    xs.foldlM (t.visit document wording check) p =
      .ok ⟨p.diagnostics ++
        (check.found p.names xs).map (·.diagnostic wording t.source document),
        check.seenAfter p.names xs⟩ := by
  induction xs generalizing p with
  | nil => rw [Check.found, List.map_nil, List.append_nil]; rfl
  | cons x xs ih =>
    obtain ⟨hx, hxs⟩ := List.forall_mem_cons.1 h
    rw [List.foldlM_cons, visit_eq (hx p.names)]
    refine (ih hxs _).trans ?_
    rw [Check.found, List.map_append, ← List.append_assoc]
    rfl

end Tree

/-! ## Names of functions -/

namespace Naming

variable {source : Text} {d : Document}

lemma found_check (seen : DefinedNames) (gs : List NamedFunction) :
    (check source d).found seen gs = findings source d seen gs := by
  induction gs generalizing seen with
  | nil => rfl
  | cons g gs ih => rw [Check.found, findings, ih]; rfl

lemma seenAfter_check (seen : DefinedNames) (gs : List NamedFunction) :
    (check source d).seenAfter seen gs =
      (gs.map (·.name.text source)).foldl .addFunction seen := by
  rw [Check.seenAfter, List.foldl_map]
  rfl

/-- The first function is not the one that the document should define first. -/
abbrev Misplaced (d : Document) (k : Nat) (name : Text) : Prop :=
  k = 0 ∧ d.isAutoloaded = true ∧ name ≠ d.autoloadName

/-- What is wrong with the name that comes after `k` of the names. -/
def codesAt (d : Document) (names : List Text) (k : Nat) (name : Text) : List Code :=
  (if name ∈ names.take k then [.duplicateFunctionName] else []) ++
    (if Misplaced d k name then [.missingAutoloadedFunctionName] else []) ++
      (if name.head? ≠ some '_' ∧ ¬ Misplaced d k name then [.privateHelperFunction] else [])

lemma codes_eq_codesAt {seen : DefinedNames} {earlier : List Text} (later : List Text)
    (name : Text) (hseen : ∀ x, x ∈ seen.functionNames ↔ x ∈ earlier) :
    codes d seen name = codesAt d (earlier ++ later) earlier.length name := by
  have hnil : seen.functionNames = [] ↔ earlier = [] := by
    simp [List.eq_nil_iff_forall_not_mem, hseen]
  have hmisplaced : isMisplaced d seen name = true ↔ Misplaced d earlier.length name := by
    simp only [isMisplaced, DefinedNames.noFunctionsYet, Bool.and_eq_true, List.isEmpty_iff,
      bne_iff_ne, hnil, Misplaced, List.length_eq_zero_iff]
    tauto
  have hduplicate : seen.hasFunction name = true ↔
      name ∈ (earlier ++ later).take earlier.length := by
    rw [List.take_left, ← hseen, DefinedNames.hasFunction, List.contains_iff_mem]
  rw [codes, codesAt]
  simp only [hduplicate, hmisplaced, Text.startsWith, beq_iff_eq]
  by_cases hm : Misplaced d earlier.length name
  · have hprivate : ¬ (name.head? ≠ some '_' ∧ ¬ Misplaced d earlier.length name) := fun h =>
      h.2 hm
    rw [if_pos hm, if_pos hm, if_neg hprivate, List.append_nil]
  · have hprivate : name.head? ≠ some '_' ∧ ¬ Misplaced d earlier.length name ↔
        ¬ name.head? = some '_' := and_iff_left hm
    rw [if_neg hm, if_neg hm, List.append_nil]
    simp only [hprivate, ite_not]

lemma findings_eq_of_seen {source : Text} {names : List Text} {seen : DefinedNames}
    {earlier : List Text} {gs : List NamedFunction}
    (hnames : names = earlier ++ gs.map (·.name.text source))
    (hseen : ∀ x, x ∈ seen.functionNames ↔ x ∈ earlier) :
    findings source d seen gs = (gs.mapIdx fun k g =>
      (codesAt d names (k + earlier.length) (g.name.text source)).map
        (Finding.mk g.name (some g.definition))).flatten := by
  induction gs generalizing seen earlier with
  | nil => rfl
  | cons g gs ih =>
    have hnames' : names =
        (earlier ++ [g.name.text source]) ++ gs.map (·.name.text source) := by simpa using hnames
    have hseen' : ∀ x, x ∈ (seen.addFunction (g.name.text source)).functionNames ↔
        x ∈ earlier ++ [g.name.text source] := by
      intro x
      rw [DefinedNames.addFunction, DefinedNames.mem_insert, hseen, List.mem_append,
        List.mem_singleton]
    rw [findings, ih hnames' hseen', List.mapIdx_cons, List.flatten_cons, hnames,
      codes_eq_codesAt ((g :: gs).map (·.name.text source)) _ hseen,
      Nat.zero_add, List.length_append, List.length_singleton]
    simp only [Nat.add_assoc, Nat.add_comm 1]

/-- The findings at the names of functions, one function at a time. -/
theorem findings_eq (source : Text) (d : Document) (gs : List NamedFunction) :
    findings source d .empty gs = (gs.mapIdx fun k g =>
      (codesAt d (gs.map (·.name.text source)) k (g.name.text source)).map
        (Finding.mk g.name (some g.definition))).flatten :=
  findings_eq_of_seen (List.nil_append _).symm fun _ => Iff.rfl

end Naming

/-! ## Rules of the walk -/

/-- The first of some lists that is not empty. -/
def firstNonEmpty {α : Type} (ls : List (List α)) : List α :=
  (ls.find? fun l => !l.isEmpty).getD []

lemma firstFindings_eq_firstNonEmpty (rules : List Rule) (source : Text) (s : Site) :
    firstFindings rules source s = firstNonEmpty (rules.map fun rule => rule source s) := by
  induction rules with
  | nil => rfl
  | cons rule rules ih =>
    rw [firstFindings, ih, List.map_cons, firstNonEmpty, firstNonEmpty, List.find?_cons]
    cases rule source s <;> rfl

lemma firstFindings_cons (rule : Rule) (rules : List Rule) (source : Text) (s : Site) :
    firstFindings (rule :: rules) source s =
      if (rule source s).isEmpty then firstFindings rules source s else rule source s := by
  rw [firstFindings]
  cases rule source s <;> rfl

namespace Detector

variable (source : Text) (s : Site) (seen : DefinedNames)

/-- The names seen at a site: the variable, if one is defined there. -/
def seenAt (source : Text) (seen : DefinedNames) (s : Site) : DefinedNames :=
  if s.node.kind = .variableDefinition then seen.addVariable (s.node.text source) else seen

lemma firstMatch_cons (detect : Detector) (rest : List Detector) :
    firstMatch (detect :: rest) source s seen =
      if (detect source s seen).1.isEmpty then
        firstMatch rest source s (detect source s seen).2
      else detect source s seen := rfl

lemma firstMatch_ofRule (rules : List Rule) :
    firstMatch (rules.map ofRule) source s seen = (firstFindings rules source s, seen) := by
  induction rules with
  | nil => rfl
  | cons rule rules ih =>
    rw [List.map_cons, firstMatch_cons, firstFindings_cons, ofRule, ih]
    split <;> rfl

/-- Asking the rules in turn gives the first findings, and misses no variable. -/
theorem firstMatch_walk :
    firstMatch walk source s seen = (firstFindings siteRules source s, seenAt source seen s) := by
  have hrest (seen : DefinedNames) := firstMatch_ofRule source s seen
    [Reachability.afterReturn, Reachability.trailingChain]
  have hvariables : ofVariables source s seen =
      (Variables.rule source s, seenAt source seen s) := by
    unfold ofVariables Variables.rule seenAt
    by_cases hk : s.node.kind = .variableDefinition <;> simp [hk]
  have hlater : firstMatch (ofVariables :: [Reachability.afterReturn,
      Reachability.trailingChain].map ofRule) source s seen =
        (firstFindings siteRules.tail source s, seenAt source seen s) := by
    rw [firstMatch_cons, hvariables, hrest, siteRules, List.tail_cons,
      firstFindings_cons Variables.rule]
    split <;> rfl
  show firstMatch (ofRule Balance.rule :: ofVariables :: _) source s seen = _
  rw [firstMatch_cons, siteRules, firstFindings_cons Balance.rule]
  by_cases hbalance : Balance.rule source s = []
  · simp only [ofRule, hbalance]
    exact hlater
  · -- only errors keep the rule for variables from being asked
    have hk : s.node.kind ≠ .variableDefinition := fun hk =>
      hbalance (Balance.rule_of_not_isError (by simp [Node.isError, hk]))
    rw [ofRule, if_neg (by simpa using hbalance), if_neg (by simpa using hbalance), seenAt,
      if_neg hk]

lemma found_walk (ss : List Site) :
    Check.found (firstMatch walk source) seen ss = ss.flatMap (firstFindings siteRules source) := by
  induction ss generalizing seen with
  | nil => rfl
  | cons s ss ih => rw [Check.found, ih, firstMatch_walk, List.flatMap_cons]

lemma seenAfter_walk (ss : List Site) :
    Check.seenAfter (firstMatch walk source) seen ss =
      (((ss.map Site.node).filter (·.kind == .variableDefinition)).map (·.text source)).foldl
        .addVariable seen := by
  rw [Check.seenAfter]
  induction ss generalizing seen with
  | nil => rfl
  | cons s ss ih =>
    rw [List.foldl_cons, ih, firstMatch_walk, List.map_cons, List.filter_cons, seenAt]
    by_cases hk : s.node.kind = .variableDefinition <;> simp [hk]

end Detector

/-! ## What is blamed is in the tree -/

section Blamed

variable {source : Text} {root n : Node} {s : Site} {f : Finding}

lemma Site.sibling_mem (hs : s ∈ root.sites none [] []) (hn : n ∈ s.before ∨ n ∈ s.after) :
    n ∈ root.preorder := by
  obtain ⟨p, hp, -, hchildren⟩ := Site.exists_parent hs hn
  have hmem : n ∈ p.children := by
    rw [hchildren, List.mem_append, List.mem_reverse]
    exact hn.imp_right (List.mem_cons_of_mem _)
  exact mem_preorder_trans hp (Node.mem_preorder_of_child hmem n.mem_preorder_self)

lemma Reachability.trailing_subset (joined : Bool) (ns : List Node) : trailing joined ns ⊆ ns := by
  induction ns generalizing joined with
  | nil => exact List.Subset.refl _
  | cons m ns ih =>
    have hlater (joined : Bool) := List.Subset.trans (ih joined) (List.subset_cons_self m ns)
    unfold trailing
    split
    · exact List.nil_subset _
    split
    · exact hlater joined
    split
    · exact hlater joined
    · exact List.cons_subset_cons m (ih false)

lemma mem_preorder_of_mem_firstFindings (hs : s ∈ root.sites none [] [])
    (hf : f ∈ firstFindings siteRules source s) : f.node ∈ root.preorder := by
  -- what the rules for blocks and variables may blame is known already
  have hblames (h : Blames source s f.node) : f.node ∈ root.preorder := by
    generalize f.node = n at h
    cases h with
    | here => exact Site.node_mem hs
    | below _ hn =>
      exact mem_preorder_trans (Site.node_mem hs)
        (Node.mem_preorder_of_child hn n.mem_preorder_self)
    | beside _ hn => exact Site.sibling_mem hs (.inl hn)
    | behind h hn =>
      obtain ⟨joined, close, hafter, -⟩ := h.after
      exact Site.sibling_mem hs (.inr (by rw [hafter]; simp [hn]))
  rcases mem_firstFindings hf with hf | ⟨-, hf | hf | ⟨-, hf⟩⟩
  · exact hblames (Balance.blames.1 f hf)
  · exact hblames (Variables.blames.1 f hf)
  · obtain ⟨-, -, rfl⟩ := Reachability.mem_afterReturn hf
    exact Site.node_mem hs
  · unfold Reachability.trailingChain at hf
    split at hf
    · obtain ⟨n, hn, rfl⟩ := List.mem_map.1 hf
      exact Site.sibling_mem hs (.inr (Reachability.trailing_subset _ _ hn))
    · cases hf

lemma Naming.mem_preorder_of_mem_check {d : Document} {g : NamedFunction} {seen : DefinedNames}
    (hg : g ∈ namedFunctions root.preorder) (hf : f ∈ (check source d g seen).1) :
    f.node ∈ root.preorder := by
  obtain ⟨code, -, rfl⟩ := List.mem_map.1 hf
  obtain ⟨hdefinition, -, hname⟩ := mem_namedFunctions.1 hg
  exact mem_preorder_trans hdefinition
    (Node.mem_preorder_of_child (mem_of_childByField? hname).1 g.name.mem_preorder_self)

end Blamed

/-! ## Passes -/

namespace Tree

variable {t : Tree} {root : Node} {document : Document} {wording : Wording}

/-- A pass over a numbered tree makes all findings and hands back all names. -/
theorem Numbered.validate_eq (h : t.Numbered) (hcheck : document.check = .ok ())
    (hroot : t.root? = some root) : t.validate document wording =
      .ok ⟨(t.namingFindings root document ++ t.walkFindings root).map
        (·.diagnostic wording t.source document), t.definedNames root⟩ := by
  have hmem {n : Node} (hn : n ∈ root.preorder) : t.node n.id = .ok n :=
    h.node_eq (mem_preorderAll.2 ⟨root, List.mem_of_mem_head? hroot, hn⟩)
  have hnaming : (Naming.namedFunctions root.preorder).foldlM
      (t.visit document wording (Naming.check t.source document)) ⟨[], .empty⟩ = _ :=
    foldlM_visit (fun g hg seen f hf => hmem (Naming.mem_preorder_of_mem_check hg hf)) _
  have hwalk (p : Pass) : (root.sites none [] []).foldlM
      (t.visit document wording (Detector.firstMatch Detector.walk t.source)) p = _ :=
    foldlM_visit (fun s hs seen f hf => hmem (mem_preorder_of_mem_firstFindings hs (by
      rwa [Detector.firstMatch_walk] at hf))) p
  have hrootOk : t.root = .ok root := by
    rw [Tree.root, hroot]
  rw [validate, hcheck, hrootOk]
  show Except.bind (List.foldlM _ _ _) _ = _
  rw [hnaming]
  refine (hwalk _).trans ?_
  rw [Detector.found_walk, Detector.seenAfter_walk, Node.map_node_sites, Naming.found_check,
    Naming.seenAfter_check, List.map_append]
  rfl

/-- What a pass over a tree with a root has to hand back: at the names of functions what is wrong
with each, in the order of the functions, then at each node what the first rule finds that finds
anything; and as names those of the functions and of the variables, each once. -/
structure Reports (t : Tree) (root : Node) (document : Document) (wording : Wording) (p : Pass) :
    Prop where
  diagnostics : p.diagnostics =
    (((Naming.namedFunctions root.preorder).mapIdx fun k g =>
        (Naming.codesAt document
          ((Naming.namedFunctions root.preorder).map (·.name.text t.source)) k
          (g.name.text t.source)).map (Finding.mk g.name (some g.definition))).flatten ++
      (root.sites none [] []).flatMap fun s => firstNonEmpty
        [Balance.rule t.source s, Variables.rule t.source s, Reachability.afterReturn t.source s,
          Reachability.trailingChain t.source s]).map (·.diagnostic wording t.source document)
  functionNames : ∀ name, name ∈ p.names.functionNames ↔
    ∃ g ∈ Naming.namedFunctions root.preorder, g.name.text t.source = name
  variableNames : ∀ name, name ∈ p.names.variableNames ↔
    ∃ n ∈ root.preorder, n.kind = .variableDefinition ∧ n.text t.source = name
  nodup : p.names.functionNames.Nodup ∧ p.names.variableNames.Nodup

/-- All findings and all names are what a pass has to hand back. -/
lemma reports_findings (t : Tree) (root : Node) (document : Document) (wording : Wording) :
    t.Reports root document wording
      ⟨(t.namingFindings root document ++ t.walkFindings root).map
        (·.diagnostic wording t.source document), t.definedNames root⟩ := by
  have hnames : t.definedNames root =
      ⟨((Naming.namedFunctions root.preorder).map (·.name.text t.source)).foldl
        (fun names name => DefinedNames.insert name names) [],
      ((root.preorder.filter (·.kind == .variableDefinition)).map (·.text t.source)).foldl
        (fun names name => DefinedNames.insert name names) []⟩ := by
    rw [definedNames, DefinedNames.foldl_addFunction, DefinedNames.foldl_addVariable]
    rfl
  refine ⟨?_, fun name => ?_, fun name => ?_, ?_⟩
  · have hfirst : firstFindings siteRules t.source = fun s => firstNonEmpty
        [Balance.rule t.source s, Variables.rule t.source s, Reachability.afterReturn t.source s,
          Reachability.trailingChain t.source s] :=
      funext fun s => firstFindings_eq_firstNonEmpty siteRules t.source s
    rw [namingFindings, walkFindings, Naming.findings_eq, hfirst]
  · rw [hnames, DefinedNames.mem_foldl_insert, List.mem_map]
    simp
  · rw [hnames, DefinedNames.mem_foldl_insert, List.mem_map]
    simp [and_assoc]
  · rw [hnames]
    exact ⟨DefinedNames.nodup_foldl_insert List.nodup_nil,
      DefinedNames.nodup_foldl_insert List.nodup_nil⟩

end Tree

lemma Document.check_eq_ok_iff {d : Document} :
    d.check = .ok () ↔ ¬ (d.isAutoloaded = true ∧ d.autoloadName = []) := by
  rw [Document.check]
  split <;> simp_all

/-- A pass is refused exactly when an autoloaded document has no name, or else the tree no root;
otherwise it hands back what it has to. -/
theorem validate_reports {source : Text} {calls : List BuildCall} {t : Tree}
    (h : Tree.build source calls = .ok t) (document : Document) (wording : Wording) :
    t.validate document wording = t.pass document wording ∧
    (t.validate document wording = .error .missingAutoloadName ↔
      document.isAutoloaded = true ∧ document.autoloadName = []) ∧
    (t.validate document wording = .error .emptyTree ↔
      ¬ (document.isAutoloaded = true ∧ document.autoloadName = []) ∧ t.root? = none) ∧
    ∀ root, ¬ (document.isAutoloaded = true ∧ document.autoloadName = []) → t.root? = some root →
      ∃ p, t.validate document wording = .ok p ∧ t.Reports root document wording p := by
  have hnumbered : t.Numbered := map_id_nodes h
  by_cases hd : document.isAutoloaded = true ∧ document.autoloadName = []
  · have hcheck : document.check = .error .missingAutoloadName := by
      simp [Document.check, hd]
    have hvalidate : t.validate document wording = .error .missingAutoloadName := by
      rw [Tree.validate, hcheck]
      rfl
    have hpass : t.pass document wording = .error .missingAutoloadName := by
      rw [Tree.pass, hcheck]
      rfl
    simp [hvalidate, hpass, hd]
  · have hcheck := Document.check_eq_ok_iff.2 hd
    cases hroot : t.root? with
    | none =>
      have hrefused : t.root = .error .emptyTree := by
        rw [Tree.root, hroot]
      have hvalidate : t.validate document wording = .error .emptyTree := by
        rw [Tree.validate, hcheck, hrefused]
        rfl
      have hpass : t.pass document wording = .error .emptyTree := by
        rw [Tree.pass, hcheck, hrefused]
        rfl
      simp [hvalidate, hpass, hd]
    | some root =>
      have hvalidate : t.validate document wording = _ := hnumbered.validate_eq hcheck hroot
      have hrootOk : t.root = .ok root := by
        rw [Tree.root, hroot]
      have hpass : t.pass document wording =
          .ok ⟨(t.namingFindings root document ++ t.walkFindings root).map
            (·.diagnostic wording t.source document), t.definedNames root⟩ := by
        rw [Tree.pass, hcheck, hrootOk]
        rfl
      rw [hvalidate, hpass]
      refine ⟨rfl, by simp [hd], by simp, fun root' _ hroot' => ?_⟩
      obtain rfl := Option.some_inj.1 hroot'
      exact ⟨_, rfl, t.reports_findings root document wording⟩

/-- Two functions of one name, neither of which the document should define, and a variable. -/
theorem validate_reports_repeated :
    let calls : List BuildCall :=
      [.start .program none, .start .functionDefinition none, .token .word (some .name) ⟨0, 1⟩,
        .finish, .start .functionDefinition none, .token .word (some .name) ⟨2, 3⟩, .finish,
        .token .variableDefinition none ⟨4, 9⟩, .finish]
    ∃ t p, Tree.build "f f xPATH".toList calls = .ok t ∧
      t.validate (Document.anonymous.withAutoloadName "g".toList) .standard = .ok p ∧
      p.diagnostics.map (·.code) = [.missingAutoloadedFunctionName, .duplicateFunctionName,
        .privateHelperFunction, .pathVariable] ∧
      "f".toList ∈ p.names.functionNames ∧ "xPATH".toList ∈ p.names.variableNames := by
  intro calls
  have hbuild : Tree.build "f f xPATH".toList calls = .ok _ := rfl
  obtain ⟨-, -, -, hok⟩ := validate_reports hbuild
    (Document.anonymous.withAutoloadName "g".toList) .standard
  obtain ⟨p, hp, hreports⟩ := hok _ (by decide) rfl
  refine ⟨_, p, hbuild, hp, ?_, ?_, ?_⟩
  · rw [hreports.diagnostics]
    decide
  · rw [hreports.functionNames]
    decide
  · rw [hreports.variableNames]
    decide

end FishScript
