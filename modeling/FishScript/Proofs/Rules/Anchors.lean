/-
# Nothing is reported twice

The walk over the tree of a source blames every node at most once, although the rules blame other
nodes than the one they are asked about. What may be blamed at a site tells which site it is
(`Blames.unique`): a node itself only if it is an error, sets a variable or is a statement of a
function, a keyword only by the error node that holds it, an option only by the one variable that
its command sets, and a word behind an `end` only by the one command that runs into this `end`.

A function definition has two nodes that the walk never blames, its opening word and its name, and
at most two findings are made at the name. So there are no more findings than nodes
(`diagnose_anchors`).
-/
import Mathlib
import FishScript.Proofs.Rules.Chaining

namespace FishScript

/-! ## What may be blamed at a site -/

/-- The rules may blame the node when they are asked about the site. -/
inductive Blames (source : Text) (s : Site) : Node → Prop
  /-- The node of the site, for what it is or where it stands. -/
  | here (h : s.node.kind = .error ∨ s.node.kind = .variableDefinition ∨
      s.node.isStatement = true ∧ ∃ p, s.parent = some p ∧ p.kind = .functionDefinition) :
      Blames source s s.node
  /-- A keyword of an error node. -/
  | below {n : Node} (h : s.node.kind = .error) (hn : n ∈ s.node.children)
      (hk : n.kind = .keyword) : Blames source s n
  /-- An option beside a variable that is set. -/
  | beside {n : Node} (h : s.node.kind = .variableDefinition) (hn : n ∈ s.before)
      (hk : n.kind = .option) : Blames source s n
  /-- A word behind the `end` that a command runs into. -/
  | behind {n : Node} {words : List Node} (h : s.RunsIntoEnd source words) (hn : n ∈ words) :
      Blames source s n

section Blames

variable {source : Text} {s s' : Site} {p n : Node} {f : Finding}

/-- A variable is set by a command, which sets no other. -/
lemma parent_of_definition (hp : p ∈ (rootOf source).preorder) (hn : n ∈ p.children)
    (hk : n.kind = .variableDefinition) :
    p.kind = .command ∧ ∀ m ∈ p.children, m.kind = .variableDefinition → m = n := by
  have hdefinitions := (arranged_of_mem_preorder hp).definitions
  have hcount : p.parts.countP Part.isDefinition =
      (p.children.filter fun m => m.kind == .variableDefinition).length := by
    rw [Node.parts, List.countP_map, List.countP_eq_length_filter]
    rfl
  have hmem : n ∈ p.children.filter fun m => m.kind == .variableDefinition :=
    List.mem_filter.2 ⟨hn, by simp [hk]⟩
  have hpos := List.length_pos_of_mem hmem
  rw [hcount] at hdefinitions
  split at hdefinitions
  case isFalse => omega
  case isTrue hcommand =>
    refine ⟨hcommand, fun m hm hkm => ?_⟩
    have hmem' : m ∈ p.children.filter fun m => m.kind == .variableDefinition :=
      List.mem_filter.2 ⟨hm, by simp [hkm]⟩
    obtain ⟨l, hl⟩ := List.length_eq_one_iff.1 (le_antisymm hdefinitions hpos)
    rw [hl, List.mem_singleton] at hmem hmem'
    rw [hmem, hmem']

lemma exists_command (hs : s ∈ (rootOf source).sites none [] [])
    (hk : s.node.kind = .variableDefinition) :
    ∃ p ∈ (rootOf source).preorder, s.parent = some p ∧ p.kind = .command ∧
      p.children = s.before.reverse ++ s.node :: s.after := by
  cases hparent : s.parent with
  | none =>
    rw [Site.eq_top hs hparent, show (Site.top (rootOf source)).node = rootOf source from rfl,
      kind_rootOf] at hk
    cases hk
  | some p =>
    obtain ⟨hp, hchildren⟩ := Site.parent_mem hs hparent
    exact ⟨p, hp, rfl, (parent_of_definition hp (by simp [hchildren]) hk).1, hchildren⟩

lemma Site.RunsIntoEnd.unique {words words' : List Node}
    (hs : s ∈ (rootOf source).sites none [] []) (hs' : s' ∈ (rootOf source).sites none [] [])
    (h : s.RunsIntoEnd source words) (h' : s'.RunsIntoEnd source words')
    (hparent : s.parent = s'.parent) : s.node = s'.node := by
  -- behind such a command stands no other one
  have hafter : ∀ {s : Site} {words : List Node}, s ∈ (rootOf source).sites none [] [] →
      s.RunsIntoEnd source words → ∀ n ∈ s.after, n.kind ≠ .command ∧ n.kind ≠ .pipeline := by
    intro s words hs h n hn
    obtain ⟨joined, close, heq, hjoined, hclose⟩ := h.after
    rw [heq] at hn
    rcases List.mem_append.1 hn with hn | hn
    · simp [hjoined n hn]
    · rcases List.mem_cons.1 hn with rfl | hn
      · constructor
        all_goals
          intro hk
          rw [Node.isEnd_eq_false_of_kind (by simp [hk])] at hclose
          cases hclose
      · obtain ⟨-, -, hk | hk⟩ := Reachability.isArgument_of_runsIntoEnd hs h n hn
        · simp [show n.kind = .word from hk]
        · simp [show n.kind = .option from hk]
  have hnot : ∀ {s s' : Site} {words words' : List Node}, s ∈ (rootOf source).sites none [] [] →
      s.RunsIntoEnd source words → s'.RunsIntoEnd source words' → s'.node ∉ s.after := by
    intro s s' words words' hs h h' hmem
    obtain ⟨hcommand, hpipeline⟩ := hafter hs h s'.node hmem
    obtain hk | hk := h'.kind
    · exact hcommand hk
    · exact hpipeline hk
  obtain ⟨p, hp, -⟩ := h.block
  have hchildren := (Site.parent_mem hs hp).2
  rw [(Site.parent_mem hs' (hparent ▸ hp)).2] at hchildren
  obtain ⟨between, -, heq⟩ | ⟨between, -, heq⟩ := List.append_eq_append_iff.1 hchildren
  · rcases between with _ | ⟨n, between⟩
    · exact (List.cons.inj heq).1.symm
    · exact absurd (by simp [(List.cons.inj heq).2]) (hnot hs' h' h)
  · rcases between with _ | ⟨n, between⟩
    · exact (List.cons.inj heq).1
    · exact absurd (by simp [(List.cons.inj heq).2]) (hnot hs h h')

/-! ### Which site blames a node -/

lemma Blames.exists_parent (hs : s ∈ (rootOf source).sites none [] []) (hn : n ∈ s.before) :
    ∃ p ∈ (rootOf source).preorder, s.parent = some p ∧ n ∈ p.children ∧ s.node ∈ p.children := by
  obtain ⟨p, hp, hparent, hchildren⟩ := Site.exists_parent hs (.inl hn)
  exact ⟨p, hp, hparent, by simp [hchildren, hn], by simp [hchildren]⟩

lemma Site.RunsIntoEnd.exists_sublist {words : List Node} (h : s.RunsIntoEnd source words)
    (hs : s ∈ (rootOf source).sites none [] []) :
    ∃ p ∈ (rootOf source).preorder, s.parent = some p ∧ (∃ b : Block, p.kind = b.kind) ∧
      words.Sublist p.children := by
  obtain ⟨p, hparent, hblock⟩ := h.block
  obtain ⟨joined, close, hafter, -⟩ := h.after
  obtain ⟨hp, hchildren⟩ := Site.parent_mem hs hparent
  refine ⟨p, hp, hparent, hblock, ?_⟩
  rw [hchildren, hafter]
  exact ((List.sublist_cons_self close words).trans (List.sublist_append_right _ _)).trans
    ((List.sublist_cons_self _ _).trans (List.sublist_append_right _ _))

lemma Site.RunsIntoEnd.exists_parent {words : List Node} (h : s.RunsIntoEnd source words)
    (hs : s ∈ (rootOf source).sites none [] []) (hn : n ∈ words) :
    ∃ p ∈ (rootOf source).preorder, s.parent = some p ∧ (∃ b : Block, p.kind = b.kind) ∧
      n ∈ p.children := by
  obtain ⟨p, hp, hparent, hblock, hwords⟩ := h.exists_sublist hs
  exact ⟨p, hp, hparent, hblock, hwords.subset hn⟩

lemma Blames.of_keyword (hs : s ∈ (rootOf source).sites none [] []) (h : Blames source s n)
    (hk : n.kind = .keyword) : s.node.kind = .error ∧ n ∈ s.node.children := by
  cases h with
  | here h =>
    exfalso
    obtain h | h | ⟨h, -⟩ := h
    · rw [hk] at h
      cases h
    · rw [hk] at h
      cases h
    · simp [Node.isStatement, Node.isNamed, hk, NodeKind.isNamed] at h
  | below h hn => exact ⟨h, hn⟩
  | beside h hn hk' =>
    rw [hk] at hk'
    cases hk'
  | behind h hn => exact absurd hk (Reachability.isArgument_of_runsIntoEnd hs h n hn).kind_ne

lemma Blames.of_option (hs : s ∈ (rootOf source).sites none [] []) (h : Blames source s n)
    (hk : n.kind = .option) (hp : p ∈ (rootOf source).preorder) (hn : n ∈ p.children)
    (hcommand : p.kind = .command) :
    s.node ∈ p.children ∧ s.node.kind = .variableDefinition := by
  cases h with
  | here h =>
    exfalso
    obtain h | h | ⟨-, q, hparent, hfunction⟩ := h
    · rw [hk] at h
      cases h
    · rw [hk] at h
      cases h
    · rw [Site.parent_of_mem_children hs hp hn, Option.some_inj] at hparent
      rw [← hparent, hcommand] at hfunction
      cases hfunction
  | below h hn' hk' =>
    rw [hk] at hk'
    cases hk'
  | beside h hn' =>
    obtain ⟨q, hq, -, hnq, hmem⟩ := Blames.exists_parent hs hn'
    obtain rfl := parent_unique hp hq hn hnq
    exact ⟨hmem, h⟩
  | behind h hn' =>
    exfalso
    obtain ⟨q, hq, -, ⟨b, hb⟩, hnq⟩ := h.exists_parent hs hn'
    obtain rfl := parent_unique hp hq hn hnq
    rw [hcommand] at hb
    cases b <;> cases hb

lemma Blames.of_argument (hs : s ∈ (rootOf source).sites none [] []) (h : Blames source s n)
    (hargument : n.part.IsArgument) (hp : p ∈ (rootOf source).preorder) (hn : n ∈ p.children)
    (hblock : ∃ b : Block, p.kind = b.kind) :
    s.parent = some p ∧ ∃ words, s.RunsIntoEnd source words := by
  obtain ⟨-, hfield, hk⟩ := hargument
  have hfield : n.field = some .argument := hfield
  have hk : n.kind = .word ∨ n.kind = .option := hk
  cases h with
  | here h =>
    exfalso
    obtain h | h | ⟨h, -⟩ := h
    · obtain hk | hk := hk <;> rw [hk] at h <;> cases h
    · obtain hk | hk := hk <;> rw [hk] at h <;> cases h
    · simp [Node.isStatement, hfield] at h
  | below h hn' hk' =>
    obtain hk | hk := hk <;> rw [hk] at hk' <;> cases hk'
  | beside h hn' =>
    exfalso
    obtain ⟨q, hq, -, hnq, hmem⟩ := Blames.exists_parent hs hn'
    obtain rfl := parent_unique hp hq hn hnq
    obtain ⟨b, hb⟩ := hblock
    rw [(parent_of_definition hp hmem h).1] at hb
    cases b <;> cases hb
  | @behind _ words h hn' =>
    obtain ⟨q, hq, hparent, -, hnq⟩ := h.exists_parent hs hn'
    obtain rfl := parent_unique hp hq hn hnq
    exact ⟨hparent, words, h⟩

/-- Who blames another node than its own is the only one to blame it. -/
lemma Blames.node_eq (hs : s ∈ (rootOf source).sites none [] [])
    (hs' : s' ∈ (rootOf source).sites none [] []) (h : Blames source s n)
    (h' : Blames source s' n) : s.node = n ∨ s.node = s'.node := by
  cases h with
  | here => exact .inl rfl
  | below h hn hk =>
    obtain ⟨-, hn'⟩ := h'.of_keyword hs' hk
    exact .inr (parent_unique (Site.node_mem hs) (Site.node_mem hs') hn hn')
  | beside h hn hk =>
    obtain ⟨p, hp, -, hnp, hmem⟩ := Blames.exists_parent hs hn
    obtain ⟨hcommand, hone⟩ := parent_of_definition hp hmem h
    obtain ⟨hmem', hk'⟩ := h'.of_option hs' hk hp hnp hcommand
    exact .inr (hone _ hmem' hk').symm
  | behind h hn =>
    have hargument := Reachability.isArgument_of_runsIntoEnd hs h n hn
    obtain ⟨p, hp, hparent, hblock, hnp⟩ := h.exists_parent hs hn
    obtain ⟨hparent', words', hruns⟩ := h'.of_argument hs' hargument hp hnp hblock
    exact .inr (Site.RunsIntoEnd.unique hs hs' h hruns (hparent.trans hparent'.symm))

/-- Every node is blamed at one site only. -/
theorem Blames.unique (hs : s ∈ (rootOf source).sites none [] [])
    (hs' : s' ∈ (rootOf source).sites none [] []) (h : Blames source s n)
    (h' : Blames source s' n) : s = s' := by
  refine site_eq_of_node_eq hs hs' ?_
  obtain hn | heq := h.node_eq hs hs' h'
  · obtain hn' | heq := h'.node_eq hs' hs h
    · rw [hn, hn']
    · exact heq.symm
  · exact heq

/-! ## What the rules blame -/

lemma Balance.mem_of_unmatchedEnd? {ks : List (Node × Text)} {depth : Nat}
    (h : Balance.unmatchedEnd? depth ks = some n) : ∃ w, (n, w) ∈ ks := by
  induction ks generalizing depth with
  | nil => cases h
  | cons k ks ih =>
    obtain ⟨m, w⟩ := k
    have hlater : ∀ {d : Nat}, Balance.unmatchedEnd? d ks = some n →
        ∃ w', (n, w') ∈ (m, w) :: ks := by
      intro d h
      obtain ⟨w', hw'⟩ := ih h
      exact ⟨w', List.mem_cons_of_mem _ hw'⟩
    unfold Balance.unmatchedEnd? at h
    split at h
    · exact hlater h
    · split at h
      · cases depth with
        | zero => exact ⟨w, by rw [Option.some_inj.1 h]; exact List.mem_cons_self⟩
        | succ d => exact hlater h
      · exact hlater h

/-- At an error node one thing is found, at the node or at a keyword of it. -/
lemma Balance.blames : (∀ f ∈ Balance.rule source s, Blames source s f.node) ∧
    ((Balance.rule source s).map Finding.node).Nodup := by
  unfold Balance.rule
  split
  case isTrue => exact ⟨fun f hf => (by cases hf), List.nodup_nil⟩
  case isFalse herror =>
    have hk : s.node.kind = .error := by simpa [Node.isError] using herror
    split
    · exact ⟨List.forall_mem_singleton.2 (.here (.inl hk)), List.nodup_singleton _⟩
    · split
      case h_1 n hn =>
        refine ⟨List.forall_mem_singleton.2 ?_, List.nodup_singleton _⟩
        obtain ⟨w, hw⟩ := Balance.mem_of_unmatchedEnd? hn
        obtain ⟨c, hc, heq⟩ := List.mem_map.1 hw
        obtain ⟨rfl, -⟩ := Prod.mk.inj heq
        obtain ⟨hmem, hkeyword⟩ := List.mem_filter.1 hc
        exact .below hk hmem (beq_iff_eq.1 hkeyword)
      case h_2 =>
        exact ⟨List.forall_mem_singleton.2 (.here (.inl hk)), List.nodup_singleton _⟩

lemma Variables.mem_optionsBefore {flag : Node} (h : flag ∈ Variables.optionsBefore s) :
    flag ∈ s.before ∧ flag.kind = .option := by
  unfold Variables.optionsBefore at h
  obtain ⟨hmem, hoption⟩ := List.mem_filter.1 (List.mem_reverse.1 h)
  exact ⟨(List.mem_filter.1 ((List.takeWhile_sublist _).subset hmem)).1, by simpa using hoption⟩

variable (source) in
lemma Variables.blames_of_flag {flag : Node} (hk : s.node.kind = .variableDefinition)
    {p : Node → Bool} (hflag : (Variables.optionsBefore s).find? p = some flag) :
    Blames source s flag ∧ p flag = true ∧ flag.kind = .option := by
  obtain ⟨hbefore, hoption⟩ := mem_optionsBefore (List.mem_of_find?_eq_some hflag)
  exact ⟨.beside hk hbefore hoption, List.find?_some hflag, hoption⟩

lemma Variables.isPathFlag_of_isUniversal {flag : Text} (h : Variables.isUniversal flag = true) :
    Variables.isPathFlag flag = false := by
  rw [← Bool.not_eq_true]
  intro hpath
  simp only [Variables.isPathFlag, Bool.or_eq_true, beq_iff_eq] at hpath
  obtain rfl | rfl := hpath <;> exact absurd h (by decide)

/-- At the definition of a variable two things may be found, at different nodes. -/
lemma Variables.blames : (∀ f ∈ Variables.rule source s, Blames source s f.node) ∧
    ((Variables.rule source s).map Finding.node).Nodup := by
  unfold Variables.rule
  split
  case isTrue => exact ⟨fun f hf => (by cases hf), List.nodup_nil⟩
  case isFalse hdefinition =>
    have hk : s.node.kind = .variableDefinition := by simpa using hdefinition
    have hhere : Blames source s s.node := .here (.inr (.inl hk))
    cases huniversal : (Variables.optionsBefore s).find? fun f =>
        Variables.isUniversal (f.text source) with
    | none =>
      cases hpath : (Variables.optionsBefore s).find? fun f =>
          Variables.isPathFlag (f.text source) with
      | none =>
        simp only [huniversal, hpath]
        cases Variables.isPathName (s.node.text source) <;> simp [Finding.here, hhere]
      | some flag =>
        obtain ⟨hflag, -⟩ := Variables.blames_of_flag source hk hpath
        simp only [huniversal, hpath]
        cases Variables.isPathName (s.node.text source) <;> simp [Finding.beside, hflag]
    | some flag =>
      obtain ⟨hflag, hu, hoption⟩ := Variables.blames_of_flag source hk huniversal
      cases hpath : (Variables.optionsBefore s).find? fun f =>
          Variables.isPathFlag (f.text source) with
      | none =>
        -- a flag is an option, and the variable is none
        have hne : flag ≠ s.node := by
          rintro rfl
          rw [hk] at hoption
          cases hoption
        simp only [huniversal, hpath]
        cases Variables.isPathName (s.node.text source) <;>
          simp [Finding.here, Finding.beside, hhere, hflag, hne]
      | some flag' =>
        obtain ⟨hflag', hp, -⟩ := Variables.blames_of_flag source hk hpath
        have hne : flag ≠ flag' := by
          rintro rfl
          rw [Variables.isPathFlag_of_isUniversal hu] at hp
          cases hp
        simp only [huniversal, hpath]
        cases Variables.isPathName (s.node.text source) <;>
          simp [Finding.beside, hflag, hflag', hne]

/-- What is found first at a site may be blamed there, each node for one reason. -/
theorem blames_of_mem_firstFindings (hs : s ∈ (rootOf source).sites none [] []) :
    (∀ f ∈ firstFindings siteRules source s, Blames source s f.node) ∧
      ((firstFindings siteRules source s).map Finding.node).Nodup := by
  constructor
  · intro f hf
    obtain hf | ⟨-, hf | hf | ⟨-, hf⟩⟩ := mem_firstFindings hf
    · exact Balance.blames.1 f hf
    · exact Variables.blames.1 f hf
    · obtain ⟨hparent, hstatement, rfl⟩ := Reachability.mem_afterReturn hf
      exact .here (.inr (.inr ⟨hstatement, hparent⟩))
    · obtain ⟨words, hwords, n, hn, rfl⟩ := Reachability.mem_trailingChain hs hf
      exact .behind hwords hn
  · rw [siteRules, firstFindings]
    split
    case h_2 => exact Balance.blames.2
    rw [firstFindings]
    split
    case h_2 => exact Variables.blames.2
    rw [firstFindings]
    split
    case h_2 =>
      unfold Reachability.afterReturn
      split
      · exact List.nodup_singleton _
      · exact List.nodup_nil
    rw [firstFindings]
    split
    case h_1 => exact List.nodup_nil
    case h_2 =>
      obtain hnil | ⟨words, hwords⟩ := Reachability.trailingChain_eq_nil_or hs
      · rw [hnil]
        exact List.nodup_nil
      · obtain ⟨p, hp, -, -, hsublist⟩ := hwords.exists_sublist hs
        rw [Reachability.trailingChain_of_runsIntoEnd hs hwords, List.map_map]
        simpa [Finding.beside, Function.comp_def] using hsublist.nodup (nodup_children hp)

end Blames

/-! ## No node twice -/

/-- The walk blames every node at most once. -/
theorem nodup_walkFindings (source : Text) :
    (((Tree.mk source [rootOf source]).walkFindings (rootOf source)).map Finding.node).Nodup := by
  have hsites : ((rootOf source).sites none [] []).Nodup := by
    refine .of_map Site.node ?_
    rw [Node.map_node_sites]
    exact .of_map Node.id (nodup_map_id source)
  rw [Tree.walkFindings, List.map_flatMap, List.nodup_flatMap]
  constructor
  · exact fun s hs => (blames_of_mem_firstFindings hs).2
  · refine List.Nodup.pairwise_of_forall_ne hsites ?_
    intro s hs s' hs' hne n hn hn'
    obtain ⟨f, hf, rfl⟩ := List.mem_map.1 hn
    obtain ⟨f', hf', heq⟩ := List.mem_map.1 hn'
    refine hne (Blames.unique hs hs' ((blames_of_mem_firstFindings hs).1 f hf) ?_)
    rw [← heq]
    exact (blames_of_mem_firstFindings hs').1 f' hf'

/-! ## What is never blamed -/

section Functions

variable {source : Text} {s : Site} {p n : Node}

lemma mem_preorder_of_mem_children (hp : p ∈ (rootOf source).preorder) (hn : n ∈ p.children) :
    n ∈ (rootOf source).preorder :=
  mem_preorder_trans hp (Node.mem_preorder_of_child hn n.mem_preorder_self)

lemma Blames.mem_preorder (hs : s ∈ (rootOf source).sites none [] []) (h : Blames source s n) :
    n ∈ (rootOf source).preorder := by
  cases h with
  | here => exact Site.node_mem hs
  | below h hn => exact mem_preorder_of_mem_children (Site.node_mem hs) hn
  | beside h hn =>
    obtain ⟨p, hp, -, hnp, -⟩ := Blames.exists_parent hs hn
    exact mem_preorder_of_mem_children hp hnp
  | behind h hn =>
    obtain ⟨p, hp, -, -, hnp⟩ := h.exists_parent hs hn
    exact mem_preorder_of_mem_children hp hnp

lemma not_blames_name (hs : s ∈ (rootOf source).sites none [] [])
    (hp : p ∈ (rootOf source).preorder) (hn : n ∈ p.children) (hname : n.field = some .name) :
    ¬ Blames source s n := by
  have hword : n.kind = .word :=
    (arranged_of_mem_preorder hp).names n.part (List.mem_map_of_mem hn) hname
  intro h
  cases h with
  | here h =>
    obtain h | h | ⟨h, -⟩ := h
    · rw [hword] at h
      cases h
    · rw [hword] at h
      cases h
    · simp [Node.isStatement, hname] at h
  | below h hn hk =>
    rw [hword] at hk
    cases hk
  | beside h hn hk =>
    rw [hword] at hk
    cases hk
  | behind h hn =>
    obtain ⟨-, hfield, -⟩ := Reachability.isArgument_of_runsIntoEnd hs h n hn
    rw [show n.field = some .argument from hfield] at hname
    cases hname

lemma not_blames_keyword (hs : s ∈ (rootOf source).sites none [] [])
    (hp : p ∈ (rootOf source).preorder) (hn : n ∈ p.children) (hk : n.kind = .keyword)
    (herror : p.kind ≠ .error) : ¬ Blames source s n := by
  intro h
  obtain ⟨herror', hn'⟩ := h.of_keyword hs hk
  rw [parent_unique hp (Site.node_mem hs) hn hn'] at herror
  exact herror herror'

end Functions

namespace Naming

variable {source : Text} {g g' : NamedFunction}

lemma mem_namedFunctions {nodes : List Node} : g ∈ namedFunctions nodes ↔
    g.definition ∈ nodes ∧ g.definition.kind = .functionDefinition ∧
      g.definition.childByField? .name = some g.name := by
  simp only [namedFunctions, List.mem_filterMap, List.mem_filter, beq_iff_eq,
    Option.map_eq_some_iff]
  constructor
  · rintro ⟨f, ⟨hf, hk⟩, c, hc, rfl⟩
    exact ⟨hf, hk, hc⟩
  · rintro ⟨hf, hk, hc⟩
    exact ⟨g.definition, ⟨hf, hk⟩, g.name, hc, rfl⟩

/-- The nodes of a function that the walk never blames: its name and its opening word. -/
def reserved (g : NamedFunction) : List Node := g.name :: g.definition.children.take 1

lemma mem_of_childByField? {p c : Node} {field : Field} (h : p.childByField? field = some c) :
    c ∈ p.children ∧ c.field = some field := by
  have hmem := List.mem_of_find?_eq_some h
  have hfield := List.find?_some h
  exact ⟨(List.mem_filter.1 hmem).1, by simpa using hfield⟩

lemma children_of_function {p : Node} (hp : p ∈ (rootOf source).preorder)
    (hk : p.kind = .functionDefinition) :
    ∃ opener rest, p.children = opener :: rest ∧ opener.kind = .keyword := by
  obtain ⟨front, close, args, hparts, ⟨clauses, -, -, opener, body, rfl, hopener, -⟩, -⟩ :=
    (sound_of_mem_preorder hp).schema.closed (b := .function) hk
  obtain ⟨c, cs, hchildren, rfl, -⟩ := Node.exists_children hparts
  exact ⟨c, cs, hchildren, Part.isKeyword_kind hopener⟩

/-- The reserved nodes of a function are two of its children, none of which is blamed. -/
lemma reserved_spec (hg : g ∈ namedFunctions (rootOf source).preorder) :
    (reserved g).Nodup ∧ (reserved g).length = 2 ∧
      ∀ n ∈ reserved g, n ∈ g.definition.children ∧
        ∀ s ∈ (rootOf source).sites none [] [], ¬ Blames source s n := by
  obtain ⟨hp, hk, hname⟩ := mem_namedFunctions.1 hg
  obtain ⟨hmem, hfield⟩ := mem_of_childByField? hname
  obtain ⟨opener, rest, hchildren, hopener⟩ := children_of_function hp hk
  have hreserved : reserved g = [g.name, opener] := by rw [reserved, hchildren]; rfl
  have hword : g.name.kind = .word :=
    (arranged_of_mem_preorder hp).names g.name.part (List.mem_map_of_mem hmem) hfield
  have hne : g.name ≠ opener := by
    intro heq
    rw [heq, hopener] at hword
    cases hword
  have hmem' : opener ∈ g.definition.children := by simp [hchildren]
  rw [hreserved]
  refine ⟨by simp [hne], rfl, ?_⟩
  simp only [List.forall_mem_cons]
  refine ⟨⟨hmem, fun s hs => not_blames_name hs hp hmem hfield⟩,
    ⟨hmem', fun s hs => not_blames_keyword hs hp hmem' hopener (by simp [hk])⟩,
    List.forall_mem_nil _⟩

lemma nodup_reserved (source : Text) :
    ((namedFunctions (rootOf source).preorder).flatMap reserved).Nodup := by
  have hnodup : (namedFunctions (rootOf source).preorder).Nodup := by
    have hnodes : (rootOf source).preorder.Nodup := .of_map Node.id (nodup_map_id source)
    refine (hnodes.filter _).filterMap ?_
    intro f f' g hg hg'
    obtain ⟨c, -, rfl⟩ := Option.map_eq_some_iff.1 hg
    obtain ⟨c', -, heq⟩ := Option.map_eq_some_iff.1 hg'
    exact (congrArg NamedFunction.definition heq).symm
  rw [List.nodup_flatMap]
  constructor
  · exact fun g hg => (reserved_spec hg).1
  · refine List.Nodup.pairwise_of_forall_ne hnodup ?_
    intro g hg g' hg' hne n hn hn'
    -- a node has one parent, and a function definition one name
    obtain ⟨hp, -, hname⟩ := mem_namedFunctions.1 hg
    obtain ⟨hp', -, hname'⟩ := mem_namedFunctions.1 hg'
    have hsame : g.definition = g'.definition :=
      parent_unique hp hp' ((reserved_spec hg).2.2 n hn).1 ((reserved_spec hg').2.2 n hn').1
    rw [hsame, hname', Option.some_inj] at hname
    obtain ⟨definition, name⟩ := g
    obtain ⟨definition', name'⟩ := g'
    obtain rfl : definition = definition' := hsame
    obtain rfl : name' = name := hname
    exact hne rfl

lemma length_findings_le_two_mul (source : Text) (document : Document) : ∀ (gs : List NamedFunction)
    (seen : DefinedNames), (findings source document seen gs).length ≤ 2 * gs.length
  | [], seen => Nat.le_refl 0
  | g :: gs, seen => by
    have hcodes : (codes document seen (g.name.text source)).length ≤ 2 := by
      unfold codes
      split <;> split <;> first | split | skip
      all_goals simp
    have hrest := length_findings_le_two_mul source document gs
      (seen.addFunction (g.name.text source))
    rw [findings, List.length_append, List.length_map, List.length_cons]
    omega

end Naming

/-! ## No more findings than nodes -/

section Walk

variable {source : Text} {f : Finding}

lemma exists_blames
    (hf : f ∈ (Tree.mk source [rootOf source]).walkFindings (rootOf source)) :
    ∃ s ∈ (rootOf source).sites none [] [], Blames source s f.node := by
  obtain ⟨s, hs, hf⟩ := List.mem_flatMap.1 hf
  exact ⟨s, hs, (blames_of_mem_firstFindings hs).1 f hf⟩

/-- There are no more findings than nodes in the tree of a source. -/
theorem length_findings_le (source : Text) (document : Document) :
    ((Tree.mk source [rootOf source]).findings (rootOf source) document).length ≤
      (rootOf source).preorder.length := by
  have hnaming : ((Tree.mk source [rootOf source]).namingFindings (rootOf source) document).length ≤
      2 * (Naming.namedFunctions (rootOf source).preorder).length :=
    Naming.length_findings_le_two_mul source document _ .empty
  have hreserved : ((Naming.namedFunctions (rootOf source).preorder).flatMap
      Naming.reserved).length = 2 * (Naming.namedFunctions (rootOf source).preorder).length := by
    have htwo : ∀ g ∈ Naming.namedFunctions (rootOf source).preorder,
        (Naming.reserved g).length = 2 := fun g hg => (Naming.reserved_spec hg).2.1
    rw [List.length_flatMap, List.map_congr_left htwo, List.map_const', List.sum_replicate,
      smul_eq_mul, Nat.mul_comm]
  -- the nodes that the walk blames and the reserved ones are distinct nodes of the tree
  have hdistinct : (((Tree.mk source [rootOf source]).walkFindings (rootOf source)).map
      Finding.node ++ (Naming.namedFunctions (rootOf source).preorder).flatMap
        Naming.reserved).Nodup := by
    refine List.nodup_append.2 ⟨nodup_walkFindings source, Naming.nodup_reserved source, ?_⟩
    intro n hn m hm heq
    obtain ⟨f, hf, rfl⟩ := List.mem_map.1 hn
    obtain ⟨g, hg, hm⟩ := List.mem_flatMap.1 hm
    obtain ⟨s, hs, hblames⟩ := exists_blames hf
    exact ((Naming.reserved_spec hg).2.2 m hm).2 s hs (heq ▸ hblames)
  have hsubset : ((Tree.mk source [rootOf source]).walkFindings (rootOf source)).map
      Finding.node ++ (Naming.namedFunctions (rootOf source).preorder).flatMap Naming.reserved ⊆
        (rootOf source).preorder := by
    intro n hn
    rcases List.mem_append.1 hn with hn | hn
    · obtain ⟨f, hf, rfl⟩ := List.mem_map.1 hn
      obtain ⟨s, hs, hblames⟩ := exists_blames hf
      exact hblames.mem_preorder hs
    · obtain ⟨g, hg, hn⟩ := List.mem_flatMap.1 hn
      exact mem_preorder_of_mem_children (Naming.mem_namedFunctions.1 hg).1
        ((Naming.reserved_spec hg).2.2 n hn).1
  have hlength := (List.subperm_of_subset hdistinct hsubset).length_le
  rw [List.length_append, List.length_map, hreserved] at hlength
  rw [Tree.findings, List.length_append]
  omega

end Walk

/-- The findings of the walk blame distinct nodes, none of which is the name of a function, and
there are no more diagnostics than nodes. -/
theorem diagnose_anchors (source : Text) {document : Document} (hd : document.check = .ok ()) :
    ∃ root ds, parse source = .ok ⟨source, [root]⟩ ∧
      (Tree.mk source [root]).diagnose document = .ok ds ∧
      ds = ((Tree.mk source [root]).namingFindings root document ++
        (Tree.mk source [root]).walkFindings root).map (·.diagnostic .standard source document) ∧
      (((Tree.mk source [root]).walkFindings root).map (·.node.id)).Nodup ∧
      (∀ f ∈ (Tree.mk source [root]).walkFindings root, f.node ∈ root.preorder ∧
        ∀ g ∈ root.preorder, g.kind = .functionDefinition →
          ∀ c, g.childByField? .name = some c → f.node.id ≠ c.id) ∧
      ds.length ≤ (Tree.mk source [root]).size := by
  have hinjective : ∀ n ∈ (rootOf source).preorder, ∀ m ∈ (rootOf source).preorder,
      n.id = m.id → n = m := fun n hn m hm h =>
    List.inj_on_of_nodup_map (nodup_map_id source) hn hm h
  have hmem : ∀ f ∈ (Tree.mk source [rootOf source]).walkFindings (rootOf source),
      f.node ∈ (rootOf source).preorder := by
    intro f hf
    obtain ⟨s, hs, hblames⟩ := exists_blames hf
    exact hblames.mem_preorder hs
  refine ⟨rootOf source, _, parse_eq source, Tree.diagnose_eq source _ hd, rfl, ?_, ?_, ?_⟩
  · have hnodup := nodup_walkFindings source
    have hids := List.Nodup.map_on (f := Node.id) ?_ hnodup
    · rwa [List.map_map] at hids
    · intro n hn m hm h
      obtain ⟨f, hf, rfl⟩ := List.mem_map.1 hn
      obtain ⟨f', hf', rfl⟩ := List.mem_map.1 hm
      exact hinjective _ (hmem f hf) _ (hmem f' hf') h
  · intro f hf
    refine ⟨hmem f hf, fun g hg hk c hc hid => ?_⟩
    obtain ⟨hcmem, hname⟩ := Naming.mem_of_childByField? hc
    have heq := hinjective _ (hmem f hf) _ (mem_preorder_of_mem_children hg hcmem) hid
    obtain ⟨s, hs, hblames⟩ := exists_blames hf
    exact not_blames_name hs hg hcmem hname (heq ▸ hblames)
  · rw [List.length_map]
    have hsize : (Tree.mk source [rootOf source]).size = (rootOf source).preorder.length := by
      simp [Tree.size, Tree.nodes, preorderAll]
    rw [hsize]
    exact length_findings_le source document

/-- A source in which every rule finds something. -/
def crowded : Text :=
  "function f\nreturn\nset -gU A_PATH\nend\nfunction f\nend\nend\nbegin\necho |\nend >x".toList

/-- Its diagnostics, as those of a file that is loaded for another function. -/
theorem diagnose_anchors_crowded :
    (Document.mk none (some "g".toList)).check = .ok () ∧
    ∃ root ds, parse crowded = .ok ⟨crowded, [root]⟩ ∧
      (Tree.mk crowded [root]).diagnose ⟨none, some "g".toList⟩ = .ok ds ∧
      ds.map (·.code) = [.missingAutoloadedFunctionName, .duplicateFunctionName,
        .privateHelperFunction, .unreachableCode, .universalVariable, .pathVariable, .extraEnd,
        .unreachableCode] ∧
      (((Tree.mk crowded [root]).walkFindings root).map (·.node.id)).Nodup ∧
      ds.length ≤ (Tree.mk crowded [root]).size := by
  have hcheck : (Document.mk none (some "g".toList)).check = .ok () := rfl
  obtain ⟨root, ds, hparse, hds, -, hnodup, -, hlength⟩ := diagnose_anchors crowded hcheck
  obtain rfl := eq_rootOf_of_parse hparse
  have hcodes : ((Tree.mk crowded [rootOf crowded]).diagnose
      ⟨none, some "g".toList⟩).toOption.map (·.map (·.code)) =
        some [.missingAutoloadedFunctionName, .duplicateFunctionName, .privateHelperFunction,
          .unreachableCode, .universalVariable, .pathVariable, .extraEnd, .unreachableCode] := by
    decide +kernel
  rw [hds] at hcodes
  exact ⟨hcheck, rootOf crowded, ds, hparse, hds, Option.some_inj.1 hcodes, hnodup, hlength⟩

end FishScript
