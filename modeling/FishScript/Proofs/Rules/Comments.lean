/-
# Comments and the rules

At nodes that match, in surroundings that match, every rule finds things with the same codes, and at
a comment no rule finds anything. So the diagnostics of trees that match have the same codes
(`codes_diagnose`), and the tree of a source matches that of the source without its comments unless
one of them stands behind a bar (`matches_rootOf`).
-/
import Mathlib
import FishScript.Proofs.Lists
import FishScript.Proofs.Rules.Structure
import FishScript.Proofs.Tree.Matching
import FishScript.Proofs.Token.Uncommenting

namespace FishScript

/-! ## Sites that match -/

/-- The site in one source is the site in another, without comments. -/
structure Site.Matches (source source' : Text) (s s' : Site) : Prop where
  node : s.node.Matches source source' s'.node
  parent : s'.parent.map Node.kind = s.parent.map Node.kind
  before : NodesMatch source source' s.before s'.before
  after : NodesMatch source source' s.after s'.after

section Sites

variable {source source' : Text}

/-- The site is not that of a comment. -/
def Site.isVisible (s : Site) : Bool := s.node.kind != .comment

mutual

lemma Node.Matches.sites : ∀ {n n' : Node}, n.Matches source source' n' →
    ∀ {parent parent' : Option Node} {before before' after after' : List Node},
      parent'.map Node.kind = parent.map Node.kind → NodesMatch source source' before before' →
        NodesMatch source source' after after' →
          List.Forall₂ (Site.Matches source source')
            ((n.sites parent before after).filter Site.isVisible)
            (n'.sites parent' before' after')
  | _, _, .mk hk ht h, _, _, _, _, _, _, hparent, hbefore, hafter => by
    rw [Node.sites, Node.sites, List.filter_cons_of_pos (by simpa [Site.isVisible] using hk)]
    exact .cons ⟨.mk hk ht h, hparent, hbefore, hafter⟩ (h.sites rfl .nil)

lemma NodesMatch.sites : ∀ {ns ns' : List Node}, NodesMatch source source' ns ns' →
    ∀ {parent parent' : Node} {before before' : List Node}, parent'.kind = parent.kind →
      NodesMatch source source' before before' →
        List.Forall₂ (Site.Matches source source')
          ((sitesOf parent before ns).filter Site.isVisible) (sitesOf parent' before' ns')
  | _, _, .nil, _, _, _, _, _, _ => .nil
  | _, _, .comment h, _, _, _, _, hparent, hbefore => h.sites hparent (.comment hbefore)
  | _, _, .keep hn h, _, _, _, _, hparent, hbefore => by
    rw [sitesOf, sitesOf, List.filter_append]
    exact List.rel_append (hn.sites (by simp [hparent]) hbefore h)
      (h.sites hparent (.keep hn hbefore))

end

end Sites

/-! ## The balance of blocks -/

section Rules

variable {source source' : Text} {n n' : Node} {ns ns' : List Node} {s s' : Site}

lemma Node.Sound.exists_first (h : n.Sound source) (he : n.isError = true) :
    ∃ c cs, n.children = c :: cs ∧ c.kind ≠ .comment := by
  have hkind : n.kind = .error := by simpa [Node.isError] using he
  obtain ⟨shape, hfits, -⟩ := h.schema.wellShaped.error hkind
  have hfirst : ∃ p ps, n.parts = p :: ps ∧ p.kind ≠ .comment := by
    cases shape with
    | unclosed =>
      obtain ⟨b, clauses, -, -, opener, body, hparts, hopener, -⟩ := hfits
      exact ⟨opener, _, hparts, by simp [Part.isKeyword_kind hopener]⟩
    | stray =>
      obtain ⟨w, keyword, args, hparts, hkeyword, -⟩ := hfits
      exact ⟨keyword, args, hparts, by simp [Part.isKeyword_kind hkeyword]⟩
    | connectors =>
      obtain ⟨operators, operand, hparts, hne, hoperators, -⟩ := hfits
      obtain ⟨p, ps, rfl⟩ := List.exists_cons_of_ne_nil hne
      exact ⟨p, ps ++ operand, hparts, by simp [(hoperators p List.mem_cons_self).2.2]⟩
    | garbage =>
      obtain ⟨first, words, hparts, -, hwords⟩ := hfits
      exact ⟨first, words, hparts, by simp [(hwords first (by simp [hparts])).2.2]⟩
  obtain ⟨p, ps, hparts, hp⟩ := hfirst
  obtain ⟨c, cs, hchildren, rfl, -⟩ := Node.exists_children hparts
  exact ⟨c, cs, hchildren, hp⟩

lemma Node.Matches.isKeyword_eq (h : n.Matches source source' n') (w : Text) :
    n'.isKeyword source' w = n.isKeyword source w := by
  rw [Node.isKeyword, Node.isKeyword, h.kind]
  cases hk : n.kind == .keyword with
  | true => rw [h.text (by simp [isRead, beq_iff_eq.1 hk])]
  | false => rw [Bool.false_and, Bool.false_and]

lemma Node.Matches.fault?_eq (h : n.Matches source source' n') (hn : n.Sound source)
    (hn' : n'.Sound source') (he : n.isError = true) : n'.fault? source' = n.fault? source := by
  obtain ⟨c, cs, hchildren, hc⟩ := hn.exists_first he
  have hmatch := h.children
  rw [hchildren] at hmatch
  obtain ⟨c', cs', hchildren', hfirst⟩ : ∃ c' cs', n'.children = c' :: cs' ∧
      c.Matches source source' c' := by
    generalize n'.children = ns' at hmatch
    cases hmatch with
    | comment => exact absurd rfl hc
    | keep hfirst => exact ⟨_, _, rfl, hfirst⟩
  have hkeyword (w : Text) (hw : w ≠ []) :
      c'.part.isKeyword source' w = c.part.isKeyword source w := by
    rw [← hn.isKeyword_child (by simp [hchildren]) hw,
      ← hn'.isKeyword_child (by simp [hchildren']) hw, hfirst.isKeyword_eq]
  have hopener (b : Block) := hkeyword b.opener.toList (by cases b <;> decide)
  have hend : c'.part.isEnd source' = c.part.isEnd source := hkeyword _ (by decide)
  simp only [Node.fault?, FishScript.fault?, FishScript.isConstruct, Node.parts, hchildren,
    hchildren', List.map_cons, List.head?_cons, Option.any_some, h.kind, hopener, hend]

lemma Site.Matches.codes_balance (h : s.Matches source source' s') (hs : s.node.Sound source)
    (hs' : s'.node.Sound source') :
    (Balance.rule source' s').map Finding.code = (Balance.rule source s).map Finding.code := by
  have herror : s'.node.isError = s.node.isError := by
    rw [Node.isError, Node.isError, h.node.kind]
  cases he : s.node.isError with
  | false => rw [Balance.rule_of_not_isError he, Balance.rule_of_not_isError (herror.trans he)]
  | true =>
    obtain ⟨f, hrule, -, hfault⟩ := Balance.rule_of_isError hs he
    obtain ⟨f', hrule', -, hfault'⟩ := Balance.rule_of_isError hs' (herror.trans he)
    rw [h.node.fault?_eq hs hs' he, hfault] at hfault'
    rw [hrule, hrule', List.map_singleton, List.map_singleton, Option.some_inj.1 hfault']

/-! ## Variables -/

lemma Site.Matches.optionsBefore (h : s.Matches source source' s') :
    List.Forall₂ (fun n n' => n.text source = n'.text source') (Variables.optionsBefore s)
      (Variables.optionsBefore s') := by
  refine List.rel_reverse (forall₂_filter (forall₂_takeWhile h.before.isNamed ?_) ?_ ?_)
  · intro n n' hn
    rw [hn.field]
  · intro n n' hn
    rw [hn.kind]
  · intro n n' hn hk
    exact (hn.text (by simp [isRead, beq_iff_eq.1 hk])).symm

lemma Site.Matches.codes_variables (h : s.Matches source source' s') :
    (Variables.rule source' s').map Finding.code = (Variables.rule source s).map Finding.code := by
  unfold Variables.rule
  rw [h.node.kind]
  split
  case isTrue => rfl
  case isFalse hk =>
    have hkind : s.node.kind = .variableDefinition := by simpa using hk
    have htext := h.node.text (by simp [isRead, hkind])
    have huniversal := forall₂_find? (p := fun f => Variables.isUniversal (f.text source))
      (q := fun f => Variables.isUniversal (f.text source')) h.optionsBefore (fun ht => by rw [ht])
      fun ht _ => ht
    have hpath := forall₂_find? (p := fun f => Variables.isPathFlag (f.text source))
      (q := fun f => Variables.isPathFlag (f.text source')) h.optionsBefore (fun ht => by rw [ht])
      fun ht _ => ht
    simp only [htext, List.map_append]
    congr 1
    · generalize List.find? _ (Variables.optionsBefore s) = flag,
        List.find? _ (Variables.optionsBefore s') = flag' at huniversal
      cases huniversal <;> rfl
    · generalize List.find? _ (Variables.optionsBefore s) = flag,
        List.find? _ (Variables.optionsBefore s') = flag' at hpath
      cases hpath <;> cases Variables.isPathName (s.node.text source) <;> rfl

/-! ## Unreachable code -/

mutual

lemma Node.Matches.alwaysReturns_eq : ∀ {n n' : Node}, n.Matches source source' n' →
    n'.alwaysReturns = n.alwaysReturns
  | _, _, .mk hk ht h => by
    simp only [Node.alwaysReturns, h.any_kind (by decide : NodeKind.elseClause ≠ .comment),
      h.someReturns_eq, h.clausesReturn_eq]

lemma NodesMatch.someReturns_eq : ∀ {ns ns' : List Node}, NodesMatch source source' ns ns' →
    someReturns ns' = someReturns ns
  | _, _, .nil => rfl
  | _, _, .comment h => h.someReturns_eq
  | _, _, .keep hn h => by
    rw [someReturns, someReturns, hn.isStatement, hn.alwaysReturns_eq, h.someReturns_eq]

lemma NodesMatch.clausesReturn_eq : ∀ {ns ns' : List Node}, NodesMatch source source' ns ns' →
    clausesReturn ns' = clausesReturn ns
  | _, _, .nil => rfl
  | _, _, .comment h => h.clausesReturn_eq
  | _, _, .keep (.mk hk ht hc) h => by
    rw [clausesReturn, clausesReturn, hc.someReturns_eq, h.clausesReturn_eq]

end

lemma Site.Matches.parent_any (h : s.Matches source source' s') (p : NodeKind → Bool) :
    s'.parent.any (p ·.kind) = s.parent.any (p ·.kind) := by
  have hany := congrArg (Option.any p) h.parent
  rwa [Option.any_map, Option.any_map] at hany

lemma Site.Matches.codes_afterReturn (h : s.Matches source source' s') :
    (Reachability.afterReturn source' s').map Finding.code =
      (Reachability.afterReturn source s).map Finding.code := by
  unfold Reachability.afterReturn
  rw [h.parent_any (· == .functionDefinition), h.node.isStatement, h.before.someReturns_eq]
  split <;> rfl

lemma NodesMatch.trailing : ∀ {ns ns' : List Node}, NodesMatch source source' ns ns' →
    ∀ joined, List.Forall₂ (Node.Matches source source') (Reachability.trailing joined ns)
      (Reachability.trailing joined ns')
  | _, _, .nil, _ => .nil
  | _, _, .comment h, joined => h.trailing joined
  | _, _, .keep hn h, joined => by
    rw [Reachability.trailing, Reachability.trailing, hn.kind, hn.isNamed]
    split
    · exact .nil
    · split
      · exact h.trailing joined
      · split
        · exact h.trailing joined
        · exact .cons hn (h.trailing false)

lemma Site.Matches.codes_trailingChain (h : s.Matches source source' s') :
    (Reachability.trailingChain source' s').map Finding.code =
      (Reachability.trailingChain source s).map Finding.code := by
  unfold Reachability.trailingChain
  rw [h.parent_any NodeKind.holdsStatements, h.node.kind]
  split
  · have hlength := (h.after.trailing true).length_eq
    rw [List.map_map, List.map_map]
    change (Reachability.trailing true s'.after).map (fun _ => Code.unreachableCode) =
      (Reachability.trailing true s.after).map fun _ => Code.unreachableCode
    rw [List.map_const', List.map_const', hlength]
  · rfl

/-! ## The walk -/

lemma codes_firstFindings {rules : List Rule}
    (h : ∀ rule ∈ rules, (rule source' s').map Finding.code = (rule source s).map Finding.code) :
    (firstFindings rules source' s').map Finding.code =
      (firstFindings rules source s).map Finding.code := by
  induction rules with
  | nil => rfl
  | cons rule rules ih =>
    obtain ⟨hrule, hrules⟩ := List.forall_mem_cons.1 h
    rw [firstFindings, firstFindings]
    cases hf : rule source s with
    | nil =>
      rw [hf, List.map_nil, List.map_eq_nil_iff] at hrule
      rw [hrule]
      exact ih hrules
    | cons f fs =>
      rw [hf, List.map_cons] at hrule
      obtain ⟨f', fs', hf', hcode, hcodes⟩ := List.map_eq_cons_iff.1 hrule
      rw [hf', List.map_cons, List.map_cons, hcode, hcodes]

lemma Site.Matches.codes (h : s.Matches source source' s') (hs : s.node.Sound source)
    (hs' : s'.node.Sound source') :
    (firstFindings siteRules source' s').map Finding.code =
      (firstFindings siteRules source s).map Finding.code := by
  refine codes_firstFindings ?_
  simp only [siteRules, List.forall_mem_cons]
  exact ⟨h.codes_balance hs hs', h.codes_variables, h.codes_afterReturn, h.codes_trailingChain,
    List.forall_mem_nil _⟩

lemma firstFindings_of_comment (hk : s.node.kind = .comment) :
    firstFindings siteRules source s = [] := by
  have hbalance : Balance.rule source s = [] :=
    Balance.rule_of_not_isError (by simp [Node.isError, hk])
  have hstatement : s.node.isStatement = false := by
    simp [Node.isStatement, Node.isNamed, hk, NodeKind.isNamed]
  simp [siteRules, firstFindings, hbalance, Variables.rule, Reachability.afterReturn,
    Reachability.trailingChain, hk, hstatement]

/-- What is found at some sites without comments is what is found at all. -/
lemma codes_flatMap {ss ss' : List Site}
    (h : List.Forall₂ (Site.Matches source source') (ss.filter Site.isVisible) ss')
    (hs : ∀ s ∈ ss, s.node.Sound source) (hs' : ∀ s ∈ ss', s.node.Sound source') :
    (ss'.flatMap (firstFindings siteRules source')).map Finding.code =
      (ss.flatMap (firstFindings siteRules source)).map Finding.code := by
  induction ss generalizing ss' with
  | nil =>
    cases h
    rfl
  | cons s ss ih =>
    obtain ⟨hfirst, hrest⟩ := List.forall_mem_cons.1 hs
    cases hv : s.isVisible with
    | false =>
      rw [List.filter_cons_of_neg (by simp [hv])] at h
      have hk : s.node.kind = .comment := by simpa [Site.isVisible] using hv
      rw [ih h hrest hs', List.flatMap_cons, firstFindings_of_comment hk, List.nil_append]
    | true =>
      rw [List.filter_cons_of_pos hv] at h
      cases h with
      | cons hmatch h =>
        obtain ⟨hfirst', hrest'⟩ := List.forall_mem_cons.1 hs'
        rw [List.flatMap_cons, List.flatMap_cons, List.map_append, List.map_append,
          hmatch.codes hfirst hfirst', ih h hrest hrest']

/-! ## Names of functions -/

lemma NodesMatch.namedFunctions (h : NodesMatch source source' ns ns') :
    List.Forall₂ (fun f f' => f.name.text source = f'.name.text source')
      (Naming.namedFunctions ns) (Naming.namedFunctions ns') := by
  refine List.rel_filterMap (fun f f' hf => ?_)
    (h.filter (fun n hk => by rw [hk]; rfl) fun hn => by rw [hn.kind])
  have hname : Option.Rel (fun c c' : Node => c.text source = c'.text source')
      (f.childByField? .name) (f'.childByField? .name) :=
    forall₂_find? hf.children.isNamed (fun hc => by rw [hc.field]) fun hc hfield =>
      (hc.text (by simp [isRead, beq_iff_eq.1 hfield])).symm
  generalize f.childByField? .name = name, f'.childByField? .name = name' at hname ⊢
  cases hname with
  | none => exact .none
  | some hname => exact .some hname

lemma Naming.codes_findings {fs fs' : List Naming.NamedFunction}
    (h : List.Forall₂ (fun f f' => f.name.text source = f'.name.text source') fs fs')
    (document : Document) (seen : DefinedNames) :
    (Naming.findings source' document seen fs').map Finding.code =
      (Naming.findings source document seen fs).map Finding.code := by
  induction h generalizing seen with
  | nil => rfl
  | cons hname _ ih =>
    simp only [Naming.findings, List.map_append, List.map_map]
    rw [hname, ih]
    rfl

end Rules

/-! ## The diagnostics of trees that match -/

section Trees

variable {source source' : Text} {root root' : Node}

theorem codes_diagnose (h : root.Matches source source' root')
    (hs : ∀ n ∈ root.preorder, n.Sound source) (hs' : ∀ n ∈ root'.preorder, n.Sound source')
    (document : Document) :
    ((Tree.mk source' [root']).diagnose document).map (·.map (·.code)) =
      ((Tree.mk source [root]).diagnose document).map (·.map (·.code)) := by
  cases hd : document.check with
  | error refusal =>
    simp only [Tree.diagnose, Tree.pass, hd]
    rfl
  | ok =>
    have hwalk := codes_flatMap (h.sites rfl .nil .nil) (fun s hs₀ => hs _ (Site.node_mem hs₀))
      fun s hs₀ => hs' _ (Site.node_mem hs₀)
    have hnames := Naming.codes_findings h.preorder.namedFunctions document .empty
    have hcodes (source : Text) (fs : List Finding) :
        (fs.map (·.diagnostic .standard source document)).map (·.code) = fs.map Finding.code := by
      rw [List.map_map]
      rfl
    rw [Tree.diagnose_eq source root hd, Tree.diagnose_eq source' root' hd]
    simp only [Except.map, hcodes]
    rw [List.map_append, List.map_append]
    exact congrArg Except.ok (congrArg₂ _ hnames hwalk)

end Trees

/-! ## Sources without their comments -/

section Sources

variable {source : Text}

/-- Unless a comment stands behind a bar, the root of the tree of a source is that of the source
without its comments. -/
lemma matches_rootOf (hlex : Recognised (tokens source))
    (hbar : commentBehindBar false ((tokens source).map Token.symbol) = false) :
    (rootOf source).Matches source (withoutComments source) (rootOf (withoutComments source)) := by
  refine Phrase.Matches.plant (matches_parseTerminals ?_ ?_) 0 0 0 0
  · exact uncomments_limited (symbols_withoutComments hlex).symm
  · refine commentBehindBar_limitFrom ?_ (.inl rfl)
    rwa [terminals, List.map_map]

/-- In a source whose tokens are all recognised and where no comment stands behind a bar, comments
are invisible: without their texts the tree has the same skeleton of named nodes, and the
diagnostics have the same codes. -/
theorem comments_invisible (hlex : Recognised (tokens source))
    (hbar : commentBehindBar false ((tokens source).map Token.symbol) = false) :
    ∃ root root', parse source = .ok ⟨source, [root]⟩ ∧
      parse (withoutComments source) = .ok ⟨withoutComments source, [root']⟩ ∧
      root'.skeleton = root.skeleton ∧
      ∀ document : Document,
        ((Tree.mk (withoutComments source) [root']).diagnose document).map (·.map (·.code)) =
          ((Tree.mk source [root]).diagnose document).map (·.map (·.code)) := by
  have hmatch := matches_rootOf hlex hbar
  exact ⟨_, _, parse_eq source, parse_eq _, hmatch.skeleton_eq,
    codes_diagnose hmatch (fun _ => sound_of_mem_preorder) fun _ => sound_of_mem_preorder⟩

end Sources

/-- A function with comments behind its name, statements, a connector and its `end`. -/
def commented : Text :=
  "function _f # named\nreturn # done\necho && # joined\necho\nend # closed".toList

/-- Without its comments that source has the same skeleton, and the same code is unreachable. -/
theorem comments_invisible_commented :
    Recognised (tokens commented) ∧
    commentBehindBar false ((tokens commented).map Token.symbol) = false ∧
    withoutComments commented = "function _f \nreturn \necho && \necho\nend ".toList ∧
    ∃ root root', parse commented = .ok ⟨commented, [root]⟩ ∧
      parse (withoutComments commented) = .ok ⟨withoutComments commented, [root']⟩ ∧
      root'.skeleton = root.skeleton ∧
      ((Tree.mk (withoutComments commented) [root']).diagnose .anonymous).map (·.map (·.code)) =
        .ok [.unreachableCode, .unreachableCode] := by
  have hlex : Recognised (tokens commented) := by decide +kernel
  have hbar : commentBehindBar false ((tokens commented).map Token.symbol) = false := by
    decide +kernel
  obtain ⟨root, root', hparse, hparse', hskeleton, hcodes⟩ := comments_invisible hlex hbar
  obtain rfl := eq_rootOf_of_parse hparse
  refine ⟨hlex, hbar, by decide +kernel, _, root', hparse, hparse', hskeleton, ?_⟩
  rw [hcodes .anonymous]
  decide +kernel

/-- A pipeline whose second command is missing, with a comment behind the bar and a connector on the
next line. -/
def commentedBar : Text := "a | # c\n&& b".toList

/-- Behind a bar a comment is visible: with it the connector joins nothing and is reported, without
it the connector joins its command to the pipeline. -/
theorem exists_visible_comment :
    ∃ root root', Recognised (tokens commentedBar) ∧
      parse commentedBar = .ok ⟨commentedBar, [root]⟩ ∧
      parse (withoutComments commentedBar) = .ok ⟨withoutComments commentedBar, [root']⟩ ∧
      root'.skeleton ≠ root.skeleton ∧
      ((Tree.mk commentedBar [root]).diagnose .anonymous).map (·.map (·.code)) =
        .ok [.syntaxError] ∧
      ((Tree.mk (withoutComments commentedBar) [root']).diagnose .anonymous).map
        (·.map (·.code)) = .ok [] := by
  have hwithout : withoutComments commentedBar = "a | \n&& b".toList := by decide +kernel
  have hkinds : (rootOf commentedBar).skeleton.children.map Skeleton.kind =
      [.pipeline, .error] := by
    decide +kernel
  have hkinds' : (rootOf (withoutComments commentedBar)).skeleton.children.map Skeleton.kind =
      [.pipeline, .conditionalExecution] := by
    rw [hwithout]
    decide +kernel
  refine ⟨rootOf commentedBar, rootOf (withoutComments commentedBar), by decide +kernel,
    parse_eq _, parse_eq _, fun hskeleton => ?_, by decide +kernel, ?_⟩
  · rw [hskeleton, hkinds] at hkinds'
    cases hkinds'
  · rw [hwithout]
    decide +kernel

end FishScript
