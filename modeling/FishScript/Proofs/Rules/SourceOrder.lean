/-
# Findings in the order of the walk

The walk comes to the nodes in the order in which they start, but what it blames at a node may
stand elsewhere: before it the options beside a variable, behind it the words after the `end` of a
block that a command runs into. The findings of the walk come as they are met, and this is the order
of the source but for two things (`pairwise_walkFindings`): of the options of one variable the one
that makes it universal is judged first, wherever it stands (`Finding.JudgedBefore`); and where a
command runs into the `end` of its block, the words behind the `end` come before what is found in
the command or in what is joined to it (`Finding.Overtakes`).
-/
import Mathlib
import FishScript.Proofs.Grammar.Labels
import FishScript.Proofs.Rules.OneWalk
import FishScript.Proofs.Rules.Setting
import FishScript.Proofs.Tree.Walk

namespace FishScript

/-! ## Children in the source -/

section Children

variable {source : Text} {s : Site} {p n m : Node} {before after : List Node}

lemma stop_le_start (hp : p ∈ (rootOf source).preorder) (hchildren : p.children = before ++ after)
    (hn : n ∈ before) (hm : m ∈ after) : n.span.stop ≤ m.span.start := by
  have horder := (spanning_of_mem_preorder hp).inOrder
  rw [hchildren, List.map_append] at horder
  obtain ⟨-, -, hbetween⟩ := InOrder.append_iff.1 horder
  exact hbetween _ (List.mem_map_of_mem hn) _ (List.mem_map_of_mem hm)

lemma Site.stop_le_of_mem_before (hs : s ∈ (rootOf source).sites none [] []) (hn : n ∈ s.before) :
    n.span.stop ≤ s.node.span.start := by
  obtain ⟨p, hp, -, hchildren⟩ := Site.exists_parent hs (.inl hn)
  exact stop_le_start hp hchildren (List.mem_reverse.2 hn) List.mem_cons_self

lemma Site.stop_le_of_mem_after (hs : s ∈ (rootOf source).sites none [] []) (hn : n ∈ s.after) :
    s.node.span.stop ≤ n.span.start := by
  obtain ⟨p, hp, -, hchildren⟩ := Site.exists_parent hs (.inr hn)
  rw [← List.singleton_append, ← List.append_assoc] at hchildren
  exact stop_le_start hp hchildren (by simp) hn

lemma leaf_of_command (hp : p ∈ (rootOf source).preorder) (hk : p.kind = .command)
    (hn : n ∈ p.children) : n.children = [] :=
  Node.children_eq_nil
    ((labelled_of_mem_preorder hp).arguments hk n.part (List.mem_map_of_mem hn)).1

/-- A command stands before another node, inside of it or behind it, unless it holds it. -/
lemma command_apart (hp : p ∈ (rootOf source).preorder) (hk : p.kind = .command)
    (hn : n ∈ (rootOf source).preorder) (hnot : n ∉ p.children) :
    p.span.stop ≤ n.span.start ∨ n.span.start ≤ p.span.start ∧
      (n.span.stop ≤ p.span.start ∨ p.span.stop ≤ n.span.stop) := by
  obtain rfl | hleads | hleads := trichotomy hn hp
  · exact .inr ⟨Nat.le_refl _, .inr (Nat.le_refl _)⟩
  · refine .inr ⟨hleads.start_le hn, hleads.symm.imp_right fun hbelow => ?_⟩
    have hmem : p ∈ n.preorder := by
      rw [n.preorder_eq]
      exact List.mem_cons_of_mem n hbelow
    exact (contains_below hn hmem).2
  · obtain hbelow | hbehind := hleads
    · rw [preorderAll_leaves fun m hm => leaf_of_command hp hk hm] at hbelow
      exact absurd hbelow hnot
    · exact .inl hbehind

end Children

/-! ## Two findings -/

/-- What conditional executions join to the node of a site. -/
def Site.joined (s : Site) : List Node := s.after.takeWhile (·.kind = .conditionalExecution)

namespace Finding

/-- The findings are about options of one variable: the first about the one that makes it universal,
the second about the one that marks it as a path variable. -/
def JudgedBefore (root : Node) (f g : Finding) : Prop :=
  ∃ s ∈ root.sites none [] [], s.node.kind = .variableDefinition ∧
    (∃ flag ∈ Variables.optionsBefore s, f = .beside s flag .universalVariable) ∧
      ∃ flag ∈ Variables.optionsBefore s, g = .beside s flag .pathFlag

/-- The first finding is about a word behind the `end` that a command runs into, the second about
something in the command or in what is joined to it. -/
def Overtakes (source : Text) (root : Node) (f g : Finding) : Prop :=
  ∃ s ∈ root.sites none [] [], ∃ words, s.RunsIntoEnd source words ∧ f.node ∈ words ∧
    g.node ∈ preorderAll (s.node :: s.joined)

/-- The walk may come to the first finding before it comes to the second: the first starts no later,
unless the two are about options of one variable, which are judged in an order of their own. Where
the first overtakes the second nothing is asked of their starts. -/
structure MayPrecede (source : Text) (root : Node) (f g : Finding) : Prop where
  judged : ¬ g.JudgedBefore root f
  start : f.node.span.start ≤ g.node.span.start ∨ f.JudgedBefore root g ∨
    f.Overtakes source root g

variable {source : Text} {root : Node} {f g : Finding}

lemma JudgedBefore.code_eq (h : f.JudgedBefore root g) :
    f.code = .universalVariable ∧ g.code = .pathFlag := by
  obtain ⟨s, -, -, ⟨_, -, rfl⟩, _, -, rfl⟩ := h
  exact ⟨rfl, rfl⟩

lemma mayPrecede_of_start_le (hcode : f.code ≠ .pathFlag)
    (hle : f.node.span.start ≤ g.node.span.start) : f.MayPrecede source root g :=
  ⟨fun h => hcode h.code_eq.2, .inl hle⟩

end Finding

/-! ## One site -/

section Site

variable {source : Text} {s : Site} {n : Node} {f : Finding}

lemma Blames.start_le_of_definition (hs : s ∈ (rootOf source).sites none [] [])
    (hk : s.node.kind = .variableDefinition) (h : Blames source s n) :
    n.span.start ≤ s.node.span.start := by
  have hn := h.mem_preorder hs
  cases h with
  | here => exact Nat.le_refl _
  | below herror =>
    rw [hk] at herror
    cases herror
  | beside _ hbefore =>
    exact (spanning_of_mem_preorder hn).forward.trans (Site.stop_le_of_mem_before hs hbefore)
  | behind hruns =>
    obtain h | h := hruns.kind <;> rw [hk] at h <;> cases h

lemma Variables.pairwise_rule (hs : s ∈ (rootOf source).sites none [] [])
    (hk : s.node.kind = .variableDefinition) :
    (Variables.rule source s).Pairwise (Finding.MayPrecede source (rootOf source)) := by
  rw [Variables.rule, if_neg (by simp [hk])]
  cases hu : (optionsBefore s).find? fun f => isUniversal (f.text source) with
  | none =>
    cases hp : (optionsBefore s).find? fun f => isPathFlag (f.text source) <;>
      simp only [hu, hp] <;> cases isPathName (s.node.text source) <;> simp
  | some universal =>
    have hstart := (Variables.blames_of_flag source hk hu).1.start_le_of_definition hs hk
    have hvariable : (Finding.beside s universal .universalVariable).MayPrecede source
        (rootOf source) (.here s .pathVariable) :=
      Finding.mayPrecede_of_start_le (by simp [Finding.beside]) hstart
    cases hp : (optionsBefore s).find? fun f => isPathFlag (f.text source) with
    | none =>
      simp only [hu, hp]
      cases isPathName (s.node.text source) <;> simp [hvariable]
    | some path =>
      -- the two options are judged in this order wherever they stand
      have hflags : (Finding.beside s universal .universalVariable).JudgedBefore (rootOf source)
          (.beside s path .pathFlag) :=
        ⟨s, hs, hk, ⟨universal, List.mem_of_find?_eq_some hu, rfl⟩, path,
          List.mem_of_find?_eq_some hp, rfl⟩
      have hpair : (Finding.beside s universal .universalVariable).MayPrecede source (rootOf source)
          (.beside s path .pathFlag) :=
        ⟨fun h => absurd h.code_eq.1 (by simp [Finding.beside]), .inr (.inl hflags)⟩
      simp only [hu, hp]
      cases isPathName (s.node.text source) <;> simp [hpair]

lemma Balance.start_eq (hs : s ∈ (rootOf source).sites none [] [])
    (hf : f ∈ Balance.rule source s) :
    Balance.rule source s = [f] ∧ f.node.span.start = s.node.span.start := by
  have hn := Site.node_mem hs
  cases herror : s.node.isError with
  | false =>
    rw [Balance.rule_of_not_isError herror] at hf
    cases hf
  | true =>
    obtain ⟨g, hrule, hexplains, -⟩ := Balance.rule_of_isError (sound_of_mem_preorder hn) herror
    rw [hrule] at hf
    obtain rfl := List.mem_singleton.1 hf
    refine ⟨hrule, ?_⟩
    generalize f.code = code, f.node.span = span at hexplains
    cases hexplains with
    | missingEnd | syntaxError => rfl
    | @extraEnd close rest hchildren =>
      -- the `end` is the first child
      have hhead : close ∈ s.node.children.head? := by rw [hchildren]; rfl
      have hlast := List.getLast?_eq_some_getLast (List.ne_nil_of_mem (List.mem_of_mem_head? hhead))
      rw [(spanning_of_mem_preorder hn).reaches close hhead _ hlast]

/-- What is blamed at a site starts no later than its node, unless it is a word behind the `end`
that a command runs into. -/
lemma start_le_or_behind (hs : s ∈ (rootOf source).sites none [] [])
    (hf : f ∈ firstFindings siteRules source s) :
    f.node.span.start ≤ s.node.span.start ∨
      ∃ words, s.RunsIntoEnd source words ∧ f.node ∈ words := by
  obtain hf | ⟨-, hf | hf | ⟨-, hf⟩⟩ := mem_firstFindings hf
  · exact .inl (Balance.start_eq hs hf).2.le
  · left
    exact (Variables.blames.1 f hf).start_le_of_definition hs (Variables.kind_of_mem hf)
  · obtain ⟨-, -, rfl⟩ := Reachability.mem_afterReturn hf
    exact .inl (Nat.le_refl _)
  · right
    obtain ⟨words, hwords, n, hn, rfl⟩ := Reachability.mem_trailingChain hs hf
    exact ⟨words, hwords, hn⟩

lemma Site.RunsIntoEnd.exists_children {words : List Node} (h : s.RunsIntoEnd source words)
    (hs : s ∈ (rootOf source).sites none [] []) :
    ∃ p ∈ (rootOf source).preorder, ∃ close : Node, close.kind = .keyword ∧
      p.children = s.before.reverse ++ s.node :: (s.joined ++ close :: words) := by
  obtain ⟨p, hparent, -⟩ := h.block
  obtain ⟨joined, close, hafter, hjoined, hclose⟩ := h.after
  obtain ⟨hp, hchildren⟩ := Site.parent_mem hs hparent
  have hkeyword : close.kind = .keyword := by
    by_contra hk
    rw [Node.isEnd_eq_false_of_kind hk] at hclose
    cases hclose
  have heq : s.joined = joined := by
    rw [Site.joined, hafter, List.takeWhile_append_of_pos (by simpa using hjoined),
      List.takeWhile_cons_of_neg (by simp [hkeyword]), List.append_nil]
  exact ⟨p, hp, close, hkeyword, by rw [heq, ← hafter, hchildren]⟩

/-- What one rule is heard with is all that is found at a site. -/
lemma firstFindings_eq_rule (source : Text) (s : Site) (rules : List Rule) :
    firstFindings rules source s = [] ∨
      ∃ rule ∈ rules, firstFindings rules source s = rule source s := by
  induction rules with
  | nil => exact .inl rfl
  | cons rule rules ih =>
    rw [firstFindings]
    split
    · obtain hnil | ⟨rule', hrule', heq⟩ := ih
      · exact .inl hnil
      · exact .inr ⟨rule', List.mem_cons_of_mem _ hrule', heq⟩
    · exact .inr ⟨rule, List.mem_cons_self, rfl⟩

theorem pairwise_firstFindings (hs : s ∈ (rootOf source).sites none [] []) :
    (firstFindings siteRules source s).Pairwise (Finding.MayPrecede source (rootOf source)) := by
  by_cases hk : s.node.kind = .variableDefinition
  · -- a variable is an argument of a command, where no other rule is heard
    obtain ⟨p, -, hparent, hcommand, -⟩ := exists_command hs hk
    rw [firstFindings_argument hparent hcommand (by simp [hk])]
    exact Variables.pairwise_rule hs hk
  · obtain hnil | ⟨rule, hrule, heq⟩ := firstFindings_eq_rule source s siteRules
    · rw [hnil]
      exact .nil
    · rw [heq]
      simp only [siteRules, List.mem_cons, List.not_mem_nil, or_false] at hrule
      rcases hrule with rfl | rfl | rfl | rfl
      · rcases hbalance : Balance.rule source s with _ | ⟨f, fs⟩
        · exact .nil
        · rw [← hbalance, (Balance.start_eq hs (f := f) (by simp [hbalance])).1]
          exact List.pairwise_singleton _ _
      · rw [Variables.rule_of_ne hk]
        exact .nil
      · unfold Reachability.afterReturn
        split
        · exact List.pairwise_singleton _ _
        · exact .nil
      · obtain hnil | ⟨words, hwords⟩ := Reachability.trailingChain_eq_nil_or hs
        · rw [hnil]
          exact .nil
        · obtain ⟨p, hp, -, -, hsub⟩ := hwords.exists_sublist hs
          have horder := (spanning_of_mem_preorder hp).inOrder.sublist (hsub.map Node.span)
          rw [Reachability.trailingChain_of_runsIntoEnd hs hwords, List.pairwise_map]
          refine (List.pairwise_map.1 horder.apart).imp_of_mem fun hn _ hapart => ?_
          refine Finding.mayPrecede_of_start_le (by simp [Finding.beside]) ?_
          exact (horder.forward _ (List.mem_map_of_mem hn)).trans hapart

end Site

/-! ## Two sites -/

section Sites

variable {source : Text} {s s' : Site} {p n m : Node} {ns words : List Node} {f g : Finding}

/-- What is blamed at a site starts no earlier than a place that is behind neither the start of its
node nor that of a command that holds it. -/
lemma Blames.le_start (hs : s ∈ (rootOf source).sites none [] []) (h : Blames source s n) {k : Nat}
    (hk : k ≤ s.node.span.start)
    (hcommand : ∀ p ∈ (rootOf source).preorder, p.kind = .command → s.node ∈ p.children →
      k ≤ p.span.start) : k ≤ n.span.start := by
  cases h with
  | here => exact hk
  | below _ hn => exact hk.trans (contains_child (Site.node_mem hs) hn).1
  | beside hdefinition hn =>
    obtain ⟨p, hp, -, hnp, hmem⟩ := Blames.exists_parent hs hn
    have hle := hcommand p hp (parent_of_definition hp hmem hdefinition).1 hmem
    exact hle.trans (contains_child hp hnp).1
  | behind hruns hn =>
    obtain ⟨joined, close, hafter, -⟩ := hruns.after
    have hle := Site.stop_le_of_mem_after hs (n := n) (by simp [hafter, hn])
    exact hk.trans ((spanning_of_mem_preorder (Site.node_mem hs)).forward.trans hle)

lemma Blames.kind_or_isStatement (h : Blames source s n) :
    s.node.kind = .error ∨ s.node.kind = .variableDefinition ∨ s.node.isStatement = true ∨
      s.node.kind = .command ∨ s.node.kind = .pipeline := by
  cases h with
  | here h =>
    obtain h | h | ⟨h, -⟩ := h
    · exact .inl h
    · exact .inr (.inl h)
    · exact .inr (.inr (.inl h))
  | below h => exact .inl h
  | beside h => exact .inr (.inl h)
  | behind h => exact .inr (.inr (.inr h.kind))

lemma firstFindings_eq_nil (hs : s ∈ (rootOf source).sites none [] [])
    (h : s.node.kind = .keyword ∨ s.node.part.IsArgument) :
    firstFindings siteRules source s = [] := by
  rw [List.eq_nil_iff_forall_not_mem]
  intro f hf
  have hactive := ((blames_of_mem_firstFindings hs).1 f hf).kind_or_isStatement
  obtain hk | ⟨-, hfield, hk⟩ := h
  · simp [hk, Node.isStatement, Node.isNamed, NodeKind.isNamed] at hactive
  · have hfield : s.node.field = some .argument := hfield
    have hk : s.node.kind = .word ∨ s.node.kind = .option := hk
    obtain hk | hk := hk <;> simp [hk, Node.isStatement, hfield] at hactive

/-- Of the arguments of a command only the variable that it sets is a place for findings. -/
lemma kind_of_argument (hs : s ∈ (rootOf source).sites none [] [])
    (hf : f ∈ firstFindings siteRules source s) (hp : p ∈ (rootOf source).preorder)
    (hk : p.kind = .command) (hmem : s.node ∈ p.children) :
    s.node.kind = .variableDefinition := by
  have hparent := Site.parent_of_mem_children hs hp hmem
  have herror : s.node.kind ≠ .error := fun he =>
    children_ne_nil_of_error (Site.node_mem hs) he (leaf_of_command hp hk hmem)
  rw [firstFindings_argument hparent hk herror] at hf
  exact Variables.kind_of_mem hf

/-- What starts no later than the node of a site starts no later than what is found at a site that
the walk visits after it. -/
lemma start_le_of_leads (hs : s ∈ (rootOf source).sites none [] [])
    (hs' : s' ∈ (rootOf source).sites none [] []) (hne : s ≠ s') (hleads : s.node.Leads s'.node)
    (hf : f ∈ firstFindings siteRules source s) (hg : g ∈ firstFindings siteRules source s') :
    s.node.span.start ≤ g.node.span.start := by
  have hle := hleads.start_le (Site.node_mem hs)
  refine ((blames_of_mem_firstFindings hs').1 g hg).le_start hs' hle fun p hp hk hmem => ?_
  have hnot : s.node ∉ p.children := by
    intro hmem'
    -- a command sets only one variable
    have hsame := (parent_of_definition hp hmem (kind_of_argument hs' hg hp hk hmem)).2 s.node hmem'
      (kind_of_argument hs hf hp hk hmem')
    exact hne (site_eq_of_node_eq hs hs' hsame)
  obtain hbehind | ⟨hstart, -⟩ := command_apart hp hk (Site.node_mem hs) hnot
  · have hnonempty := start_lt_stop hp hmem
    have hinside := (contains_child hp hmem).2
    omega
  · exact hstart

/-- Behind a command that runs into the `end` of its block nothing is found in the block, except in
what is joined to the command. -/
lemma Site.RunsIntoEnd.stop_le (hruns : s.RunsIntoEnd source words)
    (hs : s ∈ (rootOf source).sites none [] []) (hs' : s' ∈ (rootOf source).sites none [] [])
    (hp : p ∈ (rootOf source).preorder) {close : Node} (hclose : close.kind = .keyword)
    (hchildren : p.children = s.before.reverse ++ s.node :: (s.joined ++ close :: words))
    (hbelow : s'.node ∉ preorderAll (s.node.children ++ s.joined))
    (hbehind : s.node.span.stop ≤ s'.node.span.start)
    (hfound : firstFindings siteRules source s' ≠ []) : p.span.stop ≤ s'.node.span.start := by
  rw [preorderAll_append, List.mem_append, not_or] at hbelow
  have hmem : s.node ∈ p.children := by simp [hchildren]
  have hnonempty := start_lt_stop hp hmem
  have hinside := (contains_child hp hmem).1
  have hforward := (spanning_of_mem_preorder (Site.node_mem hs')).forward
  obtain heq | (hblock | hblock) | hblock := trichotomy hp (Site.node_mem hs')
  · rw [heq] at hinside
    omega
  · exfalso
    obtain ⟨c, hc, hmem'⟩ := mem_preorderAll.1 hblock
    have hcover := (contains_below (mem_preorder_of_mem_children hp hc) hmem').2
    -- at the `end` and at the words behind it nothing is found
    have hleaf : c.children = [] → ¬ (c.kind = .keyword ∨ c.part.IsArgument) := by
      intro hnone hk
      rw [c.preorder_eq, hnone] at hmem'
      obtain rfl := List.mem_singleton.1 hmem'
      exact hfound (firstFindings_eq_nil hs' hk)
    have hcases : c ∈ s.before.reverse ∨ c = s.node ∨ c ∈ s.joined ∨ c = close ∨ c ∈ words := by
      simpa [hchildren] using hc
    rcases hcases with hbefore | rfl | hjoined | rfl | hword
    · have hle := stop_le_start hp hchildren hbefore List.mem_cons_self
      omega
    · rw [s.node.preorder_eq] at hmem'
      rcases List.mem_cons.1 hmem' with heq | hmem'
      · rw [heq] at hbehind
        omega
      · exact hbelow.1 hmem'
    · exact hbelow.2 (mem_preorderAll.2 ⟨c, hjoined, hmem'⟩)
    · exact hleaf ((sound_of_mem_preorder hp).keywords c hc hclose) (.inl hclose)
    · have hargument := Reachability.isArgument_of_runsIntoEnd hs hruns c hword
      exact hleaf (Node.children_eq_nil hargument.1) (.inr hargument)
  · exact hblock
  · have hle := hblock.start_le (Site.node_mem hs')
    omega

/-- The words behind the `end` that a command runs into start no later than what is found at a site
that the walk visits after the command, unless the site is in the command or in what is joined to
it. -/
lemma start_le_of_behind (hs : s ∈ (rootOf source).sites none [] [])
    (hs' : s' ∈ (rootOf source).sites none [] []) (hleads : s.node.Leads s'.node)
    (hbelow : s'.node ∉ preorderAll (s.node.children ++ s.joined))
    (hruns : s.RunsIntoEnd source words) (hn : n ∈ words)
    (hg : g ∈ firstFindings siteRules source s') : n.span.start ≤ g.node.span.start := by
  have hfound : firstFindings siteRules source s' ≠ [] := List.ne_nil_of_mem hg
  have hbehind : s.node.span.stop ≤ s'.node.span.start := by
    refine hleads.resolve_left fun h => hbelow ?_
    rw [preorderAll_append]
    exact List.mem_append_left _ h
  obtain ⟨p, hp, close, hclose, hchildren⟩ := hruns.exists_children hs
  have hstop := hruns.stop_le hs hs' hp hclose hchildren hbelow hbehind hfound
  have hword : n ∈ p.children := by simp [hchildren, hn]
  have hstart := (start_lt_stop hp hword).le.trans (contains_child hp hword).2
  refine hstart.trans (((blames_of_mem_firstFindings hs').1 g hg).le_start hs' hstop ?_)
  -- a command that begins before the block ends is in the block
  intro q hq hk hmem
  have hnot : p ∉ q.children := by
    intro hpq
    rw [leaf_of_command hq hk hpq] at hchildren
    simp at hchildren
  have hnonempty := start_lt_stop hq hmem
  have hinside := (contains_child hq hmem).2
  have hforward := (spanning_of_mem_preorder hp).forward
  obtain h | ⟨-, h | h⟩ := command_apart hq hk hp hnot
  · omega
  · exact h
  · omega

/-- What is found in a command that runs into the `end` of its block, or in what is joined to it, is
there too. -/
lemma mem_preorderAll_of_mem_firstFindings (hs : s ∈ (rootOf source).sites none [] [])
    (hs' : s' ∈ (rootOf source).sites none [] []) (hruns : s.RunsIntoEnd source words)
    (hmem : s'.node ∈ preorderAll (s.node.children ++ s.joined))
    (hg : g ∈ firstFindings siteRules source s') : g.node ∈ preorderAll (s.node :: s.joined) := by
  obtain ⟨p, hp, close, -, hchildren⟩ := hruns.exists_children hs
  have hall : ∀ m ∈ preorderAll (s.node.children ++ s.joined),
      m ∈ preorderAll (s.node :: s.joined) := by
    intro m hm
    rw [preorderAll_append] at hm
    rw [preorderAll, s.node.preorder_eq]
    exact List.mem_cons_of_mem _ hm
  have hchild : ∀ q ∈ preorderAll (s.node :: s.joined),
      q ∈ (rootOf source).preorder ∧ ∀ m ∈ q.children, m ∈ preorderAll (s.node :: s.joined) := by
    intro q hq
    obtain ⟨c, hc, hqc⟩ := mem_preorderAll.1 hq
    have hcp : c ∈ p.children := by
      rcases List.mem_cons.1 hc with rfl | hc <;> simp [*]
    exact ⟨mem_preorder_trans (mem_preorder_of_mem_children hp hcp) hqc, fun m hm =>
      mem_preorderAll.2 ⟨c, hc, mem_preorder_trans hqc
        (Node.mem_preorder_of_child hm m.mem_preorder_self)⟩⟩
  -- a node beside one that is no conditional execution is there with it
  have hsibling : ∀ q ∈ (rootOf source).preorder, s'.node ∈ q.children →
      s'.node.kind ≠ .conditionalExecution → ∀ m ∈ q.children,
        m ∈ preorderAll (s.node :: s.joined) := by
    intro q hq hmem' hk m hm
    have hthere : ∃ r ∈ preorderAll (s.node :: s.joined), s'.node ∈ r.children := by
      obtain hmem | ⟨r, hr, hmem⟩ := mem_or_exists_parent hmem
      · rcases List.mem_append.1 hmem with hmem | hmem
        · exact ⟨s.node, mem_preorderAll.2 ⟨_, List.mem_cons_self, s.node.mem_preorder_self⟩, hmem⟩
        · exact absurd (by simpa using List.mem_takeWhile_imp hmem) hk
      · exact ⟨r, hall r hr, hmem⟩
    obtain ⟨r, hr, hmem⟩ := hthere
    obtain rfl := parent_unique hq (hchild r hr).1 hmem' hmem
    exact (hchild q hr).2 m hm
  have hblames := (blames_of_mem_firstFindings hs').1 g hg
  generalize g.node = n at hblames
  cases hblames with
  | here => exact hall _ hmem
  | below _ hn => exact (hchild _ (hall _ hmem)).2 n hn
  | beside hk hn =>
    obtain ⟨q, hq, -, hnq, hmem'⟩ := Blames.exists_parent hs' hn
    exact hsibling q hq hmem' (by simp [hk]) n hnq
  | behind hruns' hn =>
    obtain ⟨q, hq, close', -, hchildren'⟩ := hruns'.exists_children hs'
    refine hsibling q hq (by simp [hchildren']) ?_ n (by simp [hchildren', hn])
    obtain hk | hk := hruns'.kind <;> simp [hk]

lemma Finding.JudgedBefore.site_eq (hs : s ∈ (rootOf source).sites none [] [])
    (hs' : s' ∈ (rootOf source).sites none [] []) (hf : f ∈ firstFindings siteRules source s)
    (hg : g ∈ firstFindings siteRules source s') (h : f.JudgedBefore (rootOf source) g) :
    s = s' := by
  obtain ⟨v, hv, hk, ⟨flag, hflag, rfl⟩, flag', hflag', rfl⟩ := h
  have hblames {n : Node} (hn : n ∈ Variables.optionsBefore v) : Blames source v n :=
    (Variables.mem_optionsBefore hn).elim (.beside hk)
  have hfirst : s = v :=
    ((blames_of_mem_firstFindings hs).1 _ hf).unique hs hv (hblames hflag)
  have hsecond : s' = v :=
    ((blames_of_mem_firstFindings hs').1 _ hg).unique hs' hv (hblames hflag')
  rw [hfirst, hsecond]

lemma mayPrecede_of_leads (hs : s ∈ (rootOf source).sites none [] [])
    (hs' : s' ∈ (rootOf source).sites none [] []) (hne : s ≠ s') (hleads : s.node.Leads s'.node)
    (hf : f ∈ firstFindings siteRules source s) (hg : g ∈ firstFindings siteRules source s') :
    f.MayPrecede source (rootOf source) g := by
  refine ⟨fun h => hne (h.site_eq hs' hs hg hf).symm, ?_⟩
  obtain hstart | ⟨words, hruns, hn⟩ := start_le_or_behind hs hf
  · exact .inl (hstart.trans (start_le_of_leads hs hs' hne hleads hf hg))
  · by_cases hbelow : s'.node ∈ preorderAll (s.node.children ++ s.joined)
    · have hthere := mem_preorderAll_of_mem_firstFindings hs hs' hruns hbelow hg
      exact .inr (.inr ⟨s, hs, words, hruns, hn, hthere⟩)
    · exact .inl (start_le_of_behind hs hs' hleads hbelow hruns hn hg)

theorem pairwise_walkFindings (source : Text) :
    ((Tree.mk source [rootOf source]).walkFindings (rootOf source)).Pairwise
      (Finding.MayPrecede source (rootOf source)) := by
  rw [Tree.walkFindings, List.pairwise_flatMap]
  refine ⟨fun s hs => pairwise_firstFindings hs, ?_⟩
  refine (pairwise_sites source).imp_of_mem fun {s s'} hs hs' hordered f hf g hg => ?_
  obtain ⟨hne, hleads⟩ := hordered
  exact mayPrecede_of_leads hs hs' hne hleads hf hg

end Sites

lemma starts_eq (ds : List Diagnostic) :
    ds.map (·.span.start) = (ds.map fun d => (d.code, d.span.start)).map Prod.snd := by
  rw [List.map_map]
  rfl

/-- The diagnostics of the walk, which are those that are not about the names of functions, come in
the order in which they are met: an earlier one starts no later than a later one, but for the option
that makes a variable universal, which is judged before one that marks the variable as a path
variable, wherever the two stand. Of a word behind the `end` that a command runs into nothing is
said in relation to what is in the command or joined to it. -/
theorem diagnose_in_order (source : Text) {document : Document} (hd : document.check = .ok ()) :
    ∃ root, parse source = .ok ⟨source, [root]⟩ ∧
      (Tree.mk source [root]).diagnose document =
        .ok (((Tree.mk source [root]).findings root document).map
          (·.diagnostic .standard source document)) ∧
      (((Tree.mk source [root]).findings root document).filter
        (·.code.family ≠ .names)).Pairwise (Finding.MayPrecede source root) := by
  refine ⟨rootOf source, parse_eq source, Tree.diagnose_eq source _ hd, ?_⟩
  rw [Tree.findings, Tree.filter_not_findings]
  exact pairwise_walkFindings source

/-- A variable that is marked as a path variable and then made universal, behind a command that
runs into the `end` of its block. -/
def crossedBehind : Text := "begin\necho a |\nend >log\nset --path -U EDITOR vim".toList

/-- The word behind the `end` comes first, as it starts before the options of the variable; and of
these the one that makes it universal is judged before the one in front of it. -/
theorem diagnose_in_order_crossedBehind :
    Document.anonymous.check = .ok () ∧
    ∃ root, parse crossedBehind = .ok ⟨crossedBehind, [root]⟩ ∧
      ∃ word universal path : Finding,
        ((Tree.mk crossedBehind [root]).findings root .anonymous).filter
          (·.code.family ≠ .names) = [word, universal, path] ∧
        [word, universal, path].map (fun f => (f.code, f.node.span.start)) =
          [(.unreachableCode, 19), (.universalVariable, 35), (.pathFlag, 28)] ∧
        [word, universal, path].Pairwise (Finding.MayPrecede crossedBehind root) := by
  have hcheck : Document.anonymous.check = .ok () := rfl
  obtain ⟨root, hparse, -, horder⟩ := diagnose_in_order crossedBehind hcheck
  obtain rfl := eq_rootOf_of_parse hparse
  have hfound : (((Tree.mk crossedBehind [rootOf crossedBehind]).findings (rootOf crossedBehind)
      .anonymous).filter (·.code.family ≠ .names)).map (fun f => (f.code, f.node.span.start)) =
        [(.unreachableCode, 19), (.universalVariable, 35), (.pathFlag, 28)] := by
    decide +kernel
  obtain ⟨word, universal, path, heq⟩ := List.length_eq_three.1
    ((List.length_map _).symm.trans (congrArg List.length hfound))
  rw [heq] at horder hfound
  exact ⟨hcheck, rootOf crossedBehind, hparse, word, universal, path, heq, hfound, horder⟩

/-- A variable that is marked as a path variable and then made universal. -/
def crossedFlags : Text := "set --path -U EDITOR vim".toList

/-- There the option that makes it universal is reported before the one in front of it. -/
theorem exists_walk_out_of_order :
    ∃ root ds, parse crossedFlags = .ok ⟨crossedFlags, [root]⟩ ∧
      (Tree.mk crossedFlags [root]).diagnose .anonymous = .ok ds ∧
      (ds.filter (·.code.family ≠ .names)).map (fun d => (d.code, d.span.start)) =
        [(.universalVariable, 11), (.pathFlag, 4)] ∧
      ¬ ((ds.filter (·.code.family ≠ .names)).map (·.span.start)).Pairwise (· ≤ ·) := by
  have hfound : ((Tree.mk crossedFlags [rootOf crossedFlags]).diagnose .anonymous).toOption.map
      (fun ds => (ds.filter (·.code.family ≠ .names)).map fun d => (d.code, d.span.start)) =
        some [(.universalVariable, 11), (.pathFlag, 4)] := by
    decide +kernel
  have hcheck : Document.anonymous.check = .ok () := rfl
  have hds := Tree.diagnose_eq crossedFlags (rootOf crossedFlags) hcheck
  rw [hds, Except.toOption, Option.map_some] at hfound
  have hlist := Option.some_inj.1 hfound
  refine ⟨rootOf crossedFlags, _, parse_eq crossedFlags, hds, hlist, ?_⟩
  rw [starts_eq, hlist]
  decide

end FishScript
