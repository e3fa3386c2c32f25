/-
# Diagnoses of scripts

A script of one function is diagnosed exactly: each statement of the function behind the first
that always returns is reported where it is printed, and nothing else is (`diagnose_script`). The
layout of the script gives its tree node by node down to the statements of the function. Inside
these only the kinds of nodes matter, none of which any other rule is about.
-/
import Mathlib
import FishScript.Proofs.Program.Layout
import FishScript.Proofs.Rules.Returning

namespace FishScript

namespace Flow

open Program

variable {source : Text}

/-! ## Bodies in a tree -/

lemma isTame_of_unnamed {kind : NodeKind} (h : kind.isNamed = false) : IsTame kind := by
  cases kind <;> first | decide | cases h

namespace Laid

variable {b : Body} {offset : Nat} {ps : List Phrase}

/-- Only reports after returns concern the nodes of a body. -/
lemma isTame (h : Laid b offset ps) (id cursor : Nat) :
    ∀ n ∈ preorderAll (plantAll id cursor ps), IsTame n.kind := by
  induction h generalizing id cursor with
  | nil => exact fun n hn => by cases hn
  | @cons statement rest offset p ps hp hrest ih =>
    intro n hn
    -- in the statement, or else at the end of its line or in the others
    rcases List.mem_append.1 hn with hn | hn
    · by_cases hnamed : n.isNamed = true
      · have hmem : n ∈ preorderAll (plantAll id cursor [p]) := by
          rw [plantAll, preorderAll]
          exact List.mem_append_left _ hn
        exact statement.allTame none n.kind (hp.kind_mem id cursor n hmem hnamed)
      · exact isTame_of_unnamed (Bool.eq_false_iff.2 hnamed)
    · rcases List.mem_cons.1 hn with rfl | hn
      · exact isTame_of_unnamed rfl
      · exact ih _ _ n hn

/-- The statements among the nodes of a printed body stand where they are printed and return as
the statements of the body do. -/
lemma nodes (h : Laid b offset ps) (hwritten : Written source offset b.lexemes) (id cursor : Nat) :
    ((plantAll id cursor ps).filter Node.isStatement).map (fun n => (n.alwaysReturns, n.span)) =
      (b.placed offset).map fun x => (x.1.alwaysReturns, x.2) := by
  induction h generalizing id cursor with
  | nil => rfl
  | @cons statement rest offset p ps hp hrest ih =>
    rw [Body.lexemes_cons] at hwritten
    obtain ⟨hfirst, hothers⟩ := hwritten.split_newline
    obtain ⟨houtlines, -, hcovers⟩ := hp.plant rfl hfirst id cursor
    have houtline : (p.plant id cursor).outline source = statement.construct.outline none := by
      rw [plantAll, plantAll, outlinesOf] at houtlines
      split at houtlines
      · exact List.head_eq_of_cons_eq houtlines
      · cases houtlines
    -- the node is the only one of the statement, so it is both the first and the last of it
    have hstart := hcovers.first (p.plant id cursor) rfl
    have hstop := hcovers.last (p.plant id cursor) rfl
    have hspan : (p.plant id cursor).span = ⟨offset, offset + statement.text.byteLength⟩ :=
      congrArg₂ Span.mk hstart hstop
    rw [plantAll, List.filter_cons_of_pos (statement.isStatement_of_outline houtline), plantAll,
      List.filter_cons_of_neg (by simp [Phrase.plant, Node.isStatement, Node.isNamed,
        NodeKind.isNamed]), List.map_cons, ih hothers, Body.placed, List.map_cons, hspan,
      statement.alwaysReturns_of_outline houtline]

end Laid

lemma Body.text?_placed : ∀ {b : Body} {offset : Nat}, Written source offset b.lexemes →
    ∀ x ∈ b.placed offset, x.2.text? source = some x.1.text
  | .nil, _, _, x, hx => by cases hx
  | .cons statement rest, offset, hwritten, x, hx => by
    rw [lexemes_cons] at hwritten
    obtain ⟨hfirst, hothers⟩ := hwritten.split_newline
    rcases List.mem_cons.1 hx with rfl | hx
    · exact hfirst.text?
    · exact rest.text?_placed hothers x hx

/-! ## Trees of scripts -/

/-- The node of the function of a script. -/
def functionNode (ps : List Phrase) (stop : Nat) : Node := (functionPhrase ps stop).plant 1 0

/-- The node of its name. -/
def nameNode : Node := ⟨3, .word, some .name, ⟨9, 11⟩, []⟩

/-- The root of the tree of a script. -/
def scriptNode (ps : List Phrase) (stop : Nat) : Node := (scriptPhrase ps stop).plant 0 0

/-- The node of the end of its last line. -/
def lastNode (ps : List Phrase) (stop : Nat) : Node :=
  ⟨1 + (functionPhrase ps stop).size, .terminator, none, ⟨stop + 3, stop + 4⟩, []⟩

section Script

variable (ps : List Phrase) (stop : Nat)

lemma children_scriptNode :
    (scriptNode ps stop).children = [functionNode ps stop, lastNode ps stop] := rfl

lemma children_functionNode : (functionNode ps stop).children =
    ⟨2, .keyword, none, ⟨0, 8⟩, []⟩ :: nameNode :: ⟨4, .terminator, none, ⟨11, 12⟩, []⟩ ::
      (plantAll 5 headerLength ps ++
        [⟨5 + sizeOfAll ps, .keyword, none, ⟨stop, stop + 3⟩, []⟩]) := by
  rw [functionNode, functionPhrase, Phrase.plant, plantAll, plantAll, plantAll, plantAll_append]
  rfl

lemma filter_isStatement_functionNode :
    (functionNode ps stop).children.filter Node.isStatement =
      (plantAll 5 headerLength ps).filter Node.isStatement := by
  rw [children_functionNode]
  simp [List.filter_append, Node.isStatement, Node.isNamed, NodeKind.isNamed,
    nameNode]

lemma preorder_scriptNode : (scriptNode ps stop).preorder =
    scriptNode ps stop :: functionNode ps stop ::
      (preorderAll (functionNode ps stop).children ++ [lastNode ps stop]) := by
  rw [Node.preorder_eq, children_scriptNode, preorderAll, preorderAll, Node.preorder_eq]
  rfl

variable {ps} {b : Body} {offset : Nat}

lemma isTame_of_mem_functionNode (h : Laid b offset ps) :
    ∀ n ∈ preorderAll (functionNode ps stop).children, IsTame n.kind := by
  intro n hn
  rw [children_functionNode] at hn
  simp only [preorderAll, preorderAll_append, Node.preorder, nameNode, List.mem_cons,
    List.mem_append, List.not_mem_nil, or_false] at hn
  obtain rfl | rfl | rfl | hn | rfl := hn
  · exact isTame_of_unnamed rfl
  · decide
  · exact isTame_of_unnamed rfl
  · exact h.isTame 5 headerLength n hn
  · exact isTame_of_unnamed rfl

lemma isTame_of_mem_scriptNode (h : Laid b offset ps) {n : Node}
    (hn : n ∈ (scriptNode ps stop).preorder) :
    n.kind = .program ∨ n.kind = .functionDefinition ∨ IsTame n.kind := by
  rw [preorder_scriptNode, List.mem_cons, List.mem_cons, List.mem_append,
    List.mem_singleton] at hn
  obtain rfl | rfl | hn | rfl := hn
  · exact .inl rfl
  · exact .inr (.inl rfl)
  · exact .inr (.inr (isTame_of_mem_functionNode stop h n hn))
  · exact .inr (.inr (isTame_of_unnamed rfl))

lemma namedFunctions_scriptNode (h : Laid b offset ps) :
    Naming.namedFunctions (scriptNode ps stop).preorder = [⟨functionNode ps stop, nameNode⟩] := by
  have hfilter : (scriptNode ps stop).preorder.filter (·.kind == .functionDefinition) =
      [functionNode ps stop] := by
    have hbelow : (preorderAll (functionNode ps stop).children).filter
        (·.kind == .functionDefinition) = [] := by
      rw [List.filter_eq_nil_iff]
      intro n hn
      simpa using (isTame_of_mem_functionNode stop h n hn).2.2.1
    rw [preorder_scriptNode, List.filter_cons_of_neg (show ¬ _ from Bool.false_ne_true),
      List.filter_cons_of_pos (show _ = true from rfl), List.filter_append, hbelow]
    rfl
  have hname : (functionNode ps stop).childByField? .name = some nameNode := by
    rw [Node.childByField?, Node.namedChildren, children_functionNode]
    rfl
  rw [Naming.namedFunctions, hfilter, List.filterMap_cons, hname]
  rfl

lemma flatMap_afterReturn_scriptNode (h : Laid b offset ps) :
    ((scriptNode ps stop).sites none [] []).flatMap (Reachability.afterReturn source) =
      (Reachability.pastReturn (functionNode ps stop).children).map
        fun n => ⟨n, some (functionNode ps stop), .unreachableCode⟩ := by
  have hbelow : ∀ n ∈ preorderAll (functionNode ps stop).children,
      n.kind ≠ .functionDefinition :=
    fun n hn => (isTame_of_mem_functionNode stop h n hn).2.2.1
  have htop : ∀ (n : Node) (before after : List Node), Reachability.afterReturn source
      ⟨n, some (scriptNode ps stop), before, after⟩ = [] := by
    refine fun n before after => Reachability.afterReturn_eq_nil fun p hp => ?_
    obtain rfl := Option.some_inj.1 hp
    exact NodeKind.noConfusion
  have hroot : Reachability.afterReturn source ⟨scriptNode ps stop, none, [], []⟩ = [] :=
    Reachability.afterReturn_eq_nil fun p hp => by cases hp
  have hfunction : (sitesOf (functionNode ps stop) [] (functionNode ps stop).children).flatMap
      (Reachability.afterReturn source) = _ :=
    (Reachability.flatMap_sitesOf hbelow []).trans (Reachability.flatMap_childrenFrom rfl [] _)
  rw [Node.sites_eq, children_scriptNode, sitesOf, sitesOf, sitesOf, Node.sites_eq,
    (lastNode ps stop).sites_eq]
  simp only [List.flatMap_cons, List.flatMap_append, List.cons_append, hroot, htop, hfunction]
  simp [someReturns, lastNode, sitesOf]

end Script

/-! ## Diagnoses of scripts -/

namespace Body

variable {b : Body}

lemma allPlain_script (b : Body) : AllPlain b.script.body.lexemes := by
  have hbody : AllPlain b.lexemes := b.allPlain
  rw [lexemes_script]
  simp [hbody]

lemma limited_script (h : b.nesting ≤ 31) :
    limited b.script.print = (place 0 b.script.body.lexemes).map Placed.terminal := by
  refine limited_print b.script ?_
  rw [b.nesting_script]
  show 1 + b.nesting ≤ 32
  omega

lemma isPlain_of_mem_limited (h : b.nesting ≤ 31) : ∀ t ∈ limited b.script.print, t.IsPlain := by
  rw [limited_script h]
  intro t ht
  obtain ⟨x, hx, rfl⟩ := List.mem_map.1 ht
  have hlexeme : x.lexeme ∈ b.script.body.lexemes := by
    rw [← map_lexeme_place b.script.body.lexemes 0]
    exact List.mem_map_of_mem hx
  have hplain := b.allPlain_script x.lexeme hlexeme
  obtain ⟨l, span⟩ := x
  cases l with
  | word w => exact .inl ⟨w.text, rfl⟩
  | newline => exact .inr (.inr rfl)
  | connector | bar => cases hplain

lemma written_script (b : Body) : Written b.script.print headerLength b.lexemes := by
  have hprint : Written b.script.print 0 b.script.body.lexemes :=
    ⟨[], [], rfl, by rw [print, List.nil_append, List.append_nil]⟩
  rw [lexemes_script] at hprint
  obtain ⟨-, hbody⟩ := hprint.split_newline
  obtain ⟨ls, -, -, hplace, -, hwritten, -⟩ := hbody.split (b.place_append _ _)
  have hls := congrArg (List.map Placed.lexeme) hplace
  rw [map_lexeme_place, map_lexeme_place] at hls
  rw [hls]
  exact hwritten

lemma text_nameNode (b : Body) : nameNode.text b.script.print = "_f".toList := by
  have hprint : b.script.print = "function ".toList ++ "_f".toList ++
      '\n' :: spell (b.lexemes ++ ([.keyword (.closing .blockEnd)] ++ .newline :: [])) := by
    rw [print, lexemes_script, spell_append_newline]
    rfl
  rw [hprint, Node.text, nameNode, Span.text?]
  exact congrArg (Option.getD · []) (Text.slice?_append "function ".toList "_f".toList _)

end Body

/-- The statements behind the first that always returns are the same for nodes and for what they
show, if these return alike and stand at the same places. -/
lemma map_tail_dropWhile {α : Type} (returns : α → Bool) (place : α → Span) (xs : List α) :
    (xs.dropWhile fun x => !returns x).tail.map place =
      ((xs.map fun x => (returns x, place x)).dropWhile fun y => !y.1).tail.map Prod.snd := by
  rw [List.dropWhile_map, ← List.map_tail, List.map_map]
  rfl

section Diagnosis

variable {b : Body} {ps : List Phrase}

lemma namingFindings_script (h : Laid b headerLength ps) (tops : List Node) (stop : Nat) :
    (Tree.mk b.script.print tops).namingFindings (scriptNode ps stop) .anonymous = [] := by
  rw [Tree.namingFindings, namedFunctions_scriptNode stop h, Naming.findings, b.text_nameNode]
  rfl

/-- In the tree of a script nothing but statements after a return is found. -/
lemma walkFindings_script (hnesting : b.nesting ≤ 31) (h : Laid b headerLength ps) {stop : Nat}
    (hroot : rootOf b.script.print = scriptNode ps stop) (tops : List Node) :
    (Tree.mk b.script.print tops).walkFindings (scriptNode ps stop) =
      (Reachability.pastReturn (functionNode ps stop).children).map
        fun n => ⟨n, some (functionNode ps stop), .unreachableCode⟩ := by
  have hspaced := spaced_of_mem_preorder (b.isPlain_of_mem_limited hnesting)
  rw [hroot] at hspaced
  rw [Tree.walkFindings, ← flatMap_afterReturn_scriptNode stop h]
  refine List.flatMap_congr fun s hs => ?_
  have hmem : s.node ∈ (scriptNode ps stop).preorder := by
    rw [← Node.map_node_sites _ none [] []]
    exact List.mem_map_of_mem hs
  obtain ⟨herror, hvariable, hpipeline⟩ : s.node.kind ≠ .error ∧
      s.node.kind ≠ .variableDefinition ∧ s.node.kind ≠ .pipeline := by
    obtain hk | hk | ⟨herror, hvariable, -, hpipeline⟩ := isTame_of_mem_scriptNode stop h hmem
    · simp [hk]
    · simp [hk]
    · exact ⟨herror, hvariable, hpipeline⟩
  exact firstFindings_eq_afterReturn herror hvariable
    (Reachability.trailingChain_eq_nil hspaced hs hpipeline)

lemma map_span_pastReturn (h : Laid b headerLength ps) (stop : Nat) :
    (Reachability.pastReturn (functionNode ps stop).children).map Node.span =
      (b.unreachable headerLength).map Prod.snd := by
  rw [Reachability.pastReturn, filter_isStatement_functionNode, Body.unreachable,
    map_tail_dropWhile Node.alwaysReturns, h.nodes b.written_script,
    map_tail_dropWhile (fun x : Statement × Span => x.1.alwaysReturns)]

/-- Reports after returns are exact. A function of returns, commands, conditionals, choices, loops
and blocks, printed line by line as a script of its own, has one report for each statement of its
body behind the first past which control never gets, in their order and at their places, and no
other. -/
theorem diagnose_script (b : Body) (h : b.nesting ≤ 31) :
    ∃ tree, parse b.script.print = .ok tree ∧
      tree.diagnose .anonymous = .ok ((b.unreachable headerLength).map
        fun x => Diagnostic.ofCode .unreachableCode x.2) ∧
      ∀ x ∈ b.placed headerLength, x.2.text? b.script.print = some x.1.text := by
  obtain ⟨ps, hps, hparse⟩ := b.parseTerminals_script
  have hroot : rootOf b.script.print = scriptNode ps b.stop := by
    rw [rootOf, Body.limited_script h, hparse, scriptNode]
  refine ⟨⟨b.script.print, [rootOf b.script.print]⟩, parse_eq _, ?_,
    Body.text?_placed b.written_script⟩
  have hspans := congrArg (List.map (Diagnostic.ofCode .unreachableCode))
    (map_span_pastReturn hps b.stop)
  rw [List.map_map, List.map_map] at hspans
  rw [Tree.diagnose_eq b.script.print _ rfl, hroot, namingFindings_script hps,
    walkFindings_script h hps hroot, List.nil_append, List.map_map]
  exact congrArg Except.ok hspans

end Diagnosis

/-! ## A script -/

/-- A conditional of which all branches return, one of them behind a loop and inside another
conditional; before it stands a choice, and behind it a command and a block. -/
def sample : Body :=
  let x : Word := ⟨"$x".toList, by decide +kernel, by decide +kernel⟩
  let echo : PlainCall :=
    ⟨⟨⟨⟨"echo".toList, by decide +kernel, by decide +kernel⟩, by decide +kernel⟩, [x]⟩,
      by decide +kernel⟩
  let leave : Body := .cons (.returning []) .nil
  let inner : Statement := .conditional echo leave (.otherwise leave)
  .cons (.choice [x] (.cons [x] leave .nil))
    (.cons (.conditional echo leave
        (.elseIf echo (.cons (.loop echo leave) (.cons inner .nil)) (.otherwise leave)))
      (.cons (.command echo) (.cons (.block leave) .nil)))

/-- Its last two statements are reported. -/
theorem diagnose_script_sample : sample.nesting ≤ 31 ∧
    (sample.unreachable headerLength).map Prod.snd = [⟨150, 157⟩, ⟨158, 174⟩] ∧
    ∃ tree, parse sample.script.print = .ok tree ∧
      tree.diagnose .anonymous = .ok ((sample.unreachable headerLength).map
        fun x => Diagnostic.ofCode .unreachableCode x.2) ∧
      ∀ x ∈ sample.placed headerLength, x.2.text? sample.script.print = some x.1.text :=
  ⟨by decide +kernel, by decide +kernel, diagnose_script sample (by decide +kernel)⟩

end Flow

end FishScript
