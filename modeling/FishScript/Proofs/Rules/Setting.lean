/-
# Diagnoses of the command `set`

The rule for the flags of variables looks back from the node that the grammar has marked, at the
nodes before it, and so reads the options of the command a second time. It comes to what the words
of the command say (`Setting.diagnostics`), and no other rule finds anything in such a source: so
its findings can be told from its words alone (`diagnose_set`).
-/
import Mathlib
import FishScript.Proofs.Grammar.Setting
import FishScript.Proofs.Rules.Chaining
import FishScript.Proofs.Rules.Comments
import FishScript.Proofs.Rules.Returning

namespace FishScript

namespace Setting

/-! ## What is wrong with a setting -/

/-- The option makes the variable universal. -/
def MakesUniversal (w : Text) : Prop := w = "--universal".toList ∨ 'U' ∈ cluster w

/-- The option says whether the variable is a path variable. -/
def MarksPath (w : Text) : Prop := w = "--path".toList ∨ w = "--unpath".toList

/-- The variable has the name of a path variable. -/
def NamesPath (w : Text) : Prop := "PATH".toList <:+ w

instance (w : Text) : Decidable (MakesUniversal w) := inferInstanceAs (Decidable (_ ∨ _))

instance (w : Text) : Decidable (MarksPath w) := inferInstanceAs (Decidable (_ ∨ _))

instance (w : Text) : Decidable (NamesPath w) := inferInstanceAs (Decidable (_ <:+ _))

/-- The first option that makes the variable universal is reported, then the name if it alone makes
the variable a path variable, or the first option that says whether the variable is one if the name
does not say so. -/
def diagnostics (s : Setting) : List Diagnostic :=
  (match s.before.find? fun tok => MakesUniversal tok.text with
    | none => []
    | some flag =>
      [⟨.universalVariable, .warning, flag.span,
        Wording.named flag.text ++ " makes ".toList ++ Wording.named s.name.text ++
          " universal, shared with every fish session".toList⟩]) ++
  match s.before.find? fun tok => MarksPath tok.text with
  | none =>
    if NamesPath s.name.text then
      [⟨.pathVariable, .warning, s.name.span,
        Wording.named s.name.text ++ " ends in PATH; define it with --path".toList⟩]
    else []
  | some flag =>
    if NamesPath s.name.text then []
    else
      [⟨.pathFlag, .warning, flag.span,
        Wording.named flag.text ++ " used on ".toList ++ Wording.named s.name.text ++
          ", which does not end in PATH".toList⟩]

lemma isUniversal_iff (w : Text) : Variables.isUniversal w = true ↔ MakesUniversal w := by
  by_cases hlong : "--".toList <+: w
  · obtain ⟨long, rfl⟩ := hlong
    simp [Variables.isUniversal, MakesUniversal, cluster]
  · have hname : w ≠ "--universal".toList := by
      rintro rfl
      exact hlong (by decide)
    have huniversal : Variables.isUniversal w = (cluster w).contains 'U' := by
      unfold Variables.isUniversal
      fun_cases cluster w with
      | case1 long => exact absurd ⟨long, rfl⟩ hlong
      | case2 | case3 => simp
    rw [MakesUniversal, or_iff_right hname, huniversal, List.contains_iff_mem]

lemma isPathFlag_iff (w : Text) : Variables.isPathFlag w = true ↔ MarksPath w := by
  simp [Variables.isPathFlag, MarksPath]

lemma isPathName_iff (w : Text) : Variables.isPathName w = true ↔ NamesPath w :=
  List.isSuffixOf_iff_suffix

end Setting

/-! ## The rule at a marked variable -/

section Marked

variable {source : Text} {t : Setting} {p name v : Node} {before after : List Node}

lemma forall_mem_of_forall₂ {toks : List Token} {ns : List Node} {kind : NodeKind}
    (h : List.Forall₂ (Node.IsArgument source kind) toks ns) :
    ∀ n ∈ ns, n.kind = kind ∧ n.field = some .argument := by
  induction h with
  | nil => exact List.forall_mem_nil _
  | cons hn _ ih => exact List.forall_mem_cons.2 ⟨⟨hn.kind, hn.field⟩, ih⟩

/-- Back from the variable to the name of the command there are the options. -/
lemma optionsBefore_eq (hname : name.field = some .name)
    (hoptions : ∀ n ∈ before, n.kind = .option ∧ n.field = some .argument)
    (p : Option Node) (after : List Node) :
    Variables.optionsBefore ⟨v, p, (name :: before).reverse, after⟩ = before := by
  have hoptions : ∀ n ∈ before.reverse, n.kind = .option ∧ n.field = some .argument :=
    fun n hn => hoptions n (List.mem_reverse.1 hn)
  have hnamed : before.reverse.filter Node.isNamed = before.reverse :=
    List.filter_eq_self.2 fun n hn => by
      rw [Node.isNamed, (hoptions n hn).1]
      rfl
  have hroles : ∀ n ∈ before.reverse, (n.field != some .name) = true := by
    intro n hn
    rw [(hoptions n hn).2]
    rfl
  have hkinds : before.reverse.filter (fun n => n.kind == .option) = before.reverse :=
    List.filter_eq_self.2 fun n hn => beq_iff_eq.2 (hoptions n hn).1
  have hstop : ([name].filter Node.isNamed).takeWhile (fun n => n.field != some .name) = [] := by
    rw [List.filter_singleton]
    cases name.isNamed <;> simp [hname]
  rw [Variables.optionsBefore, List.reverse_cons, List.filter_append, hnamed,
    List.takeWhile_append_of_pos hroles, hstop, List.append_nil, hkinds, List.reverse_reverse]

lemma definedName?_eq {f : Finding} (hparent : f.parent = some p)
    (hchildren : p.children = before ++ v :: after) (hv : v.kind = .variableDefinition)
    (hbefore : ∀ n ∈ before, n.kind ≠ .variableDefinition) :
    Wording.definedName? source f = some (v.text source) := by
  have hnone : (before.filter Node.isNamed).find? (·.kind == .variableDefinition) = none := by
    rw [List.find?_eq_none]
    intro n hn
    simpa using hbefore n (List.mem_of_mem_filter hn)
  have hnamed : v.isNamed = true := by
    rw [Node.isNamed, hv]
    rfl
  rw [Wording.definedName?, hparent, Option.bind_some, Node.namedChildren, hchildren,
    List.filter_append, List.filter_cons_of_pos hnamed, List.find?_append, hnone,
    List.find?_cons_of_pos (by simp [hv])]
  rfl

lemma find?_rel {toks : List Token} {ns : List Node} {kind : NodeKind}
    (h : List.Forall₂ (Node.IsArgument source kind) toks ns) {P : Text → Bool} {Q : Text → Prop}
    [DecidablePred Q] (hPQ : ∀ w, P w = true ↔ Q w) :
    Option.Rel (Node.IsArgument source kind) (toks.find? fun tok => Q tok.text)
      (ns.find? fun n => P (n.text source)) := by
  refine forall₂_find? h ?_ fun hn _ => hn
  intro tok n hn
  rw [hn.text, Bool.eq_iff_iff, decide_eq_true_iff, hPQ]

/-- The rule finds at a marked variable what is wrong with the setting. -/
theorem Setting.Marks.map_rule (h : t.Marks source before v after) (hname : name.field = some .name)
    (hkind : name.kind ≠ .variableDefinition)
    (hchildren : p.children = (name :: before) ++ v :: after) (document : Document) :
    (Variables.rule source ⟨v, some p, (name :: before).reverse, after⟩).map
      (·.diagnostic .standard source document) = t.diagnostics := by
  have hoptions := forall_mem_of_forall₂ h.options
  have hearlier : ∀ n ∈ name :: before, n.kind ≠ .variableDefinition :=
    List.forall_mem_cons.2 ⟨hkind, fun n hn => by simp [hoptions n hn]⟩
  have hdefined {f : Finding} (hf : f.parent = some p) :
      Wording.definedName? source f = some t.name.text := by
    rw [definedName?_eq hf hchildren h.target.kind hearlier, h.target.text]
  have hdiagnostic (f : Finding) : f.diagnostic .standard source document =
      ⟨f.code, f.code.defaultSeverity, f.node.span, Wording.standard source document f⟩ := rfl
  have huniversal := find?_rel h.options isUniversal_iff
  have hpath := find?_rel h.options isPathFlag_iff
  have hpathName : Variables.isPathName (v.text source) = decide (NamesPath t.name.text) := by
    rw [h.target.text, Bool.eq_iff_iff, decide_eq_true_iff, isPathName_iff]
  rw [Variables.rule, if_neg (by simp [h.target.kind]), optionsBefore_eq hname hoptions]
  simp only [hpathName, List.map_append, Setting.diagnostics, decide_eq_true_eq]
  refine congrArg₂ (· ++ ·) ?_ ?_
  · -- the first option that makes the variable universal
    generalize (t.before.find? fun tok => MakesUniversal tok.text) = flag? at huniversal ⊢
    generalize (before.find? fun n => Variables.isUniversal (n.text source)) = node? at huniversal ⊢
    cases huniversal with
    | none => rfl
    | some hflag =>
      rw [List.map_singleton, hdiagnostic]
      simp only [Finding.beside, Wording.standard, hdefined, hflag.span, hflag.text]
      rfl
  · -- the first option about paths, against the name
    generalize (t.before.find? fun tok => MarksPath tok.text) = flag? at hpath ⊢
    generalize (before.find? fun n => Variables.isPathFlag (n.text source)) = node? at hpath ⊢
    cases hpath with
    | none =>
      simp only [apply_ite (List.map _), List.map_nil, List.map_singleton, hdiagnostic,
        Finding.here, Wording.standard, h.target.text, h.target.span]
      rfl
    | some hflag =>
      simp only [apply_ite (List.map _), List.map_nil, List.map_singleton, hdiagnostic,
        Finding.beside, Wording.standard, hdefined, hflag.span, hflag.text]
      rfl

end Marked

/-! ## Walks over a command -/

section Walk

variable {source : Text} {s : Site} {p command name : Node} {ns ms before after : List Node}

lemma flatMap_rule_append (h : ∀ n ∈ ms, n.kind ≠ .variableDefinition) (p : Node)
    (before ns : List Node) :
    (Site.childrenFrom p before (ms ++ ns)).flatMap (Variables.rule source) =
      (Site.childrenFrom p (ms.reverse ++ before) ns).flatMap (Variables.rule source) := by
  induction ms generalizing before with
  | nil => rfl
  | cons m ms ih =>
    obtain ⟨hm, hms⟩ := List.forall_mem_cons.1 h
    rw [List.cons_append, Site.childrenFrom, List.flatMap_cons, Variables.rule_of_ne hm, ih hms,
      List.reverse_cons, List.append_assoc]
    rfl

lemma flatMap_rule_eq_nil (h : ∀ n ∈ ms, n.kind ≠ .variableDefinition) (p : Node)
    (before : List Node) :
    (Site.childrenFrom p before ms).flatMap (Variables.rule source) = [] := by
  rw [← List.append_nil ms, flatMap_rule_append h]
  rfl

lemma flatMap_rule_variable {v : Node} (hbefore : ∀ n ∈ before, n.kind ≠ .variableDefinition)
    (hafter : ∀ n ∈ after, n.kind ≠ .variableDefinition) (p : Node) :
    (Site.childrenFrom p [] (before ++ v :: after)).flatMap (Variables.rule source) =
      Variables.rule source ⟨v, some p, before.reverse, after⟩ := by
  rw [flatMap_rule_append hbefore, List.append_nil, Site.childrenFrom, List.flatMap_cons,
    flatMap_rule_eq_nil hafter, List.append_nil]

lemma sitesOf_leaves (h : ∀ n ∈ ns, n.children = []) (p : Node) (before : List Node) :
    sitesOf p before ns = Site.childrenFrom p before ns := by
  induction ns generalizing before with
  | nil => rfl
  | cons n ns ih =>
    obtain ⟨hn, hns⟩ := List.forall_mem_cons.1 h
    rw [sitesOf, n.sites_eq, hn, ih hns]
    rfl

lemma preorderAll_leaves (h : ∀ n ∈ ns, n.children = []) : preorderAll ns = ns := by
  induction ns with
  | nil => rfl
  | cons n ns ih =>
    obtain ⟨hn, hns⟩ := List.forall_mem_cons.1 h
    rw [preorderAll, n.preorder_eq, hn, ih hns]
    rfl

/-- At the words of a command only the rule for the flags of variables finds anything. -/
lemma firstFindings_argument (hparent : s.parent = some p) (hp : p.kind = .command)
    (herror : s.node.kind ≠ .error) :
    firstFindings siteRules source s = Variables.rule source s := by
  have hbalance : Balance.rule source s = [] :=
    Balance.rule_of_not_isError (by simpa [Node.isError] using herror)
  have hreturn : Reachability.afterReturn source s = [] :=
    Reachability.afterReturn_eq_nil fun q hq => by
      rw [hparent, Option.some_inj] at hq
      rw [← hq, hp]
      decide
  have htrailing : Reachability.trailingChain source s = [] := by
    simp [Reachability.trailingChain, hparent, hp, NodeKind.holdsStatements]
  simp only [siteRules, firstFindings, hbalance, hreturn, htrailing]
  cases Variables.rule source s <;> rfl

/-- The node is a program of one command that has nothing but words. -/
structure Node.IsCall (root command : Node) (words : List Node) : Prop where
  root_kind : root.kind = .program
  root_children : root.children = [command]
  kind : command.kind = .command
  children : command.children = words
  leaf : ∀ n ∈ words, n.children = []
  word : ∀ n ∈ words, n.kind = .word ∨ n.kind = .option ∨ n.kind = .variableDefinition

namespace Node.IsCall

variable {root : Node}

lemma preorder_eq (h : root.IsCall command ns) : root.preorder = root :: command :: ns := by
  rw [root.preorder_eq, h.root_children, preorderAll, command.preorder_eq, h.children,
    preorderAll_leaves h.leaf]
  simp [preorderAll]

lemma namingFindings_eq (h : root.IsCall command ns) (t : Tree) (document : Document) :
    t.namingFindings root document = [] := by
  refine Tree.namingFindings_eq_nil ?_ t document
  rw [h.preorder_eq]
  refine List.forall_mem_cons.2 ⟨by simp [h.root_kind], List.forall_mem_cons.2
    ⟨by simp [h.kind], fun n hn => ?_⟩⟩
  rcases h.word n hn with hk | hk | hk <;> simp [hk]

/-- What is found is what the rule for the flags of variables finds at the words. -/
lemma walkFindings_eq (h : root.IsCall command ns) :
    (Tree.mk source [root]).walkFindings root =
      (Site.childrenFrom command [] ns).flatMap (Variables.rule source) := by
  have hroot : firstFindings siteRules source ⟨root, none, [], []⟩ = [] := by
    have htrailing : Reachability.trailingChain source ⟨root, none, [], []⟩ = [] := by
      simp [Reachability.trailingChain]
    rw [firstFindings_eq_afterReturn (by simp [h.root_kind]) (by simp [h.root_kind]) htrailing]
    exact Reachability.afterReturn_eq_nil fun p hp => by cases hp
  have hcommand : firstFindings siteRules source ⟨command, some root, [], []⟩ = [] := by
    have hreturn : Reachability.afterReturn source ⟨command, some root, [], []⟩ = [] :=
      Reachability.afterReturn_eq_nil fun p hp => by
        rw [← Option.some_inj.1 hp, h.root_kind]
        decide
    rw [firstFindings_eq_trailingChain (.inl h.kind) hreturn]
    simp [Reachability.trailingChain, Reachability.trailing]
  rw [Tree.walkFindings, root.sites_eq, h.root_children, sitesOf, command.sites_eq, h.children,
    sitesOf_leaves h.leaf]
  simp only [sitesOf, List.append_nil, List.flatMap_cons, hroot, hcommand, List.nil_append]
  refine List.flatMap_congr fun s hs => ?_
  obtain ⟨hparent, hsplit⟩ := Site.surroundings_of_mem_childrenFrom hs
  have hword := h.word s.node (by rw [← List.nil_append ns, ← List.reverse_nil, hsplit]; simp)
  refine firstFindings_argument hparent h.kind ?_
  rcases hword with hk | hk | hk <;> simp [hk]

end Node.IsCall

end Walk

/-! ## Diagnoses -/

section Source

variable {args : List Spelling}

lemma isCall_set (hwords : ∀ x ∈ args, x.kind = .word) :
    (rootOf (setSource args)).IsCall (setNode args) (setName :: setArguments args) := by
  obtain ⟨hkind, hchildren⟩ := rootOf_setSource hwords
  have hleaves := mem_plantAll_arguments (Spelling.placed 4 args) .searching 3 3
  exact ⟨hkind, hchildren, rfl, rfl, List.forall_mem_cons.2 ⟨rfl, fun n hn => (hleaves n hn).1⟩,
    List.forall_mem_cons.2 ⟨.inl rfl, fun n hn => (hleaves n hn).2⟩⟩

lemma filter_preorder_set (hwords : ∀ x ∈ args, x.kind = .word) :
    (rootOf (setSource args)).preorder.filter (·.kind == .variableDefinition) =
      (setArguments args).filter (·.kind == .variableDefinition) := by
  have hcall := isCall_set hwords
  rw [hcall.preorder_eq, List.filter_cons, List.filter_cons, hcall.root_kind, hcall.kind]
  rfl

lemma diagnose_set_eq (hwords : ∀ x ∈ args, x.kind = .word) {document : Document}
    (hd : document.check = .ok ()) :
    (Tree.mk (setSource args) [rootOf (setSource args)]).diagnose document =
      .ok (((Site.childrenFrom (setNode args) [] (setName :: setArguments args)).flatMap
        (Variables.rule (setSource args))).map
          (·.diagnostic .standard (setSource args) document)) := by
  have hcall := isCall_set hwords
  rw [Tree.diagnose_eq (setSource args) _ hd, hcall.namingFindings_eq, List.nil_append,
    hcall.walkFindings_eq]

end Source

/-- The command `set` with any words behind it defines the variable of their setting, or none if
there is no setting, and its diagnostics are those of the setting, in their order and with their
messages. -/
theorem diagnose_set (args : List Spelling) (hwords : ∀ x ∈ args, x.kind = .word)
    {document : Document} (hd : document.check = .ok ()) :
    ∃ root, parse (setSource args) = .ok ⟨setSource args, [root]⟩ ∧
      (root.preorder.filter (·.kind == .variableDefinition)).map
          (fun n => (n.text (setSource args), n.span)) =
        (setting? (Spelling.placed 4 args)).toList.map (fun s => (s.name.text, s.name.span)) ∧
      (Tree.mk (setSource args) [root]).diagnose document =
        .ok ((setting? (Spelling.placed 4 args)).elim [] Setting.diagnostics) := by
  refine ⟨rootOf (setSource args), parse_eq _, ?_⟩
  rw [filter_preorder_set hwords, diagnose_set_eq hwords hd]
  obtain ⟨hnone, hsome⟩ := marks_plantAll (text?_of_mem_placed hwords) 3 3
  have hfilter {ms : List Node} (hms : ∀ n ∈ ms, n.kind ≠ .variableDefinition) :
      ms.filter (fun n => n.kind == .variableDefinition) = [] :=
    List.filter_eq_nil_iff.2 (by simpa using hms)
  have hword : setName.kind ≠ .variableDefinition := by decide
  cases hs : setting? (Spelling.placed 4 args) with
  | none =>
    have hplain : ∀ n ∈ setArguments args, n.kind ≠ .variableDefinition := hnone hs
    rw [hfilter hplain, flatMap_rule_eq_nil (List.forall_mem_cons.2 ⟨hword, hplain⟩)]
    exact ⟨rfl, rfl⟩
  | some s =>
    obtain ⟨before, v, after, hnodes, hmarks⟩ := hsome s hs
    have hnodes : setArguments args = before ++ v :: after := hnodes
    have hoptions : ∀ n ∈ before, n.kind ≠ .variableDefinition := fun n hn => by
      simp [forall_mem_of_forall₂ hmarks.options n hn]
    have hchildren : (setNode args).children = (setName :: before) ++ v :: after := by
      rw [children_setNode, hnodes]
      rfl
    constructor
    · rw [hnodes, List.filter_append, hfilter hoptions,
        List.filter_cons_of_pos (by simp [hmarks.target.kind]), hfilter hmarks.others,
        List.nil_append, List.map_singleton, hmarks.target.text, hmarks.target.span]
      rfl
    · rw [hnodes, ← List.cons_append,
        flatMap_rule_variable (List.forall_mem_cons.2 ⟨hword, hoptions⟩) hmarks.others,
        hmarks.map_rule rfl hword hchildren]
      rfl

/-- Clusters, long options and two dashes before a name that looks like an option itself, and a word
behind it that looks like a flag. -/
def crowdedArguments : List Spelling :=
  [.word "-x".toList (by decide +kernel),
    .word "-gU".toList (by decide +kernel),
    .word "--universal=no".toList (by decide +kernel),
    .word "--unpath".toList (by decide +kernel),
    .word "--".toList (by decide +kernel),
    .word "-q'é PATH'".toList (by decide +kernel),
    .word "--path".toList (by decide +kernel)]

theorem diagnose_set_crowded : (∀ x ∈ crowdedArguments, x.kind = .word) ∧
    Document.anonymous.check = .ok () ∧
    setSource crowdedArguments =
      "set -x -gU --universal=no --unpath -- -q'é PATH' --path".toList ∧
    ∃ root, parse (setSource crowdedArguments) = .ok ⟨setSource crowdedArguments, [root]⟩ ∧
      (root.preorder.filter (·.kind == .variableDefinition)).map
          (fun n => (n.text (setSource crowdedArguments), n.span)) =
        [("-q'é PATH'".toList, ⟨38, 49⟩)] ∧
      (Tree.mk (setSource crowdedArguments) [root]).diagnose .anonymous =
        .ok [⟨.universalVariable, .warning, ⟨7, 10⟩,
          "'-gU' makes '-q'é PATH'' universal, shared with every fish session".toList⟩,
          ⟨.pathFlag, .warning, ⟨26, 34⟩,
            "'--unpath' used on '-q'é PATH'', which does not end in PATH".toList⟩] := by
  have hwords : ∀ x ∈ crowdedArguments, x.kind = .word := by decide
  have hd : Document.anonymous.check = .ok () := rfl
  obtain ⟨root, hparse, hmarked, hdiagnose⟩ := diagnose_set crowdedArguments hwords hd
  refine ⟨hwords, hd, by decide, root, hparse, ?_, ?_⟩
  · rw [hmarked]
    decide +kernel
  · rw [hdiagnose]
    decide +kernel

end FishScript
