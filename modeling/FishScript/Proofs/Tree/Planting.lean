/-
# The tree of a phrase

The calls of a phrase, run from any state of the builder, attach exactly one node: the phrase
*planted* at the number of nodes and at the greatest end of a leaf that the state has reached.
So a source always has a tree, it has one node at the top, and what is proved about phrases can
be read off that node.
-/
import Mathlib
import FishScript.Grammar.Parser

namespace FishScript

/-! ## Planted phrases -/

mutual

/-- The number of nodes of a phrase. -/
def Phrase.size : Phrase → Nat
  | .leaf _ _ _ => 1
  | .node _ _ children => sizeOfAll children + 1

/-- The number of nodes of some phrases. -/
def sizeOfAll : List Phrase → Nat
  | [] => 0
  | p :: rest => p.size + sizeOfAll rest

end

mutual

/-- The greatest end of a leaf after a phrase, if it was `cursor` before. -/
def Phrase.reach (cursor : Nat) : Phrase → Nat
  | .leaf _ _ span => max cursor span.stop
  | .node _ _ children => reachOfAll cursor children

/-- The greatest end of a leaf after some phrases. -/
def reachOfAll (cursor : Nat) : List Phrase → Nat
  | [] => cursor
  | p :: rest => reachOfAll (p.reach cursor) rest

end

mutual

/-- The node of a phrase whose first number is `id`, when the leaves before it end at `cursor`. -/
def Phrase.plant (id cursor : Nat) : Phrase → Node
  | .leaf kind field span => ⟨id, kind, field, span, []⟩
  | .node kind field children =>
    ⟨id, kind, field,
      OpenNode.spanOf (reachOfAll cursor children) (plantAll (id + 1) cursor children).reverse,
      plantAll (id + 1) cursor children⟩

/-- The nodes of some phrases, one after the other. -/
def plantAll (id cursor : Nat) : List Phrase → List Node
  | [] => []
  | p :: rest => p.plant id cursor :: plantAll (id + p.size) (p.reach cursor) rest

end

lemma plantAll_append (ps qs : List Phrase) (id cursor : Nat) :
    plantAll id cursor (ps ++ qs) =
      plantAll id cursor ps ++ plantAll (id + sizeOfAll ps) (reachOfAll cursor ps) qs := by
  induction ps generalizing id cursor with
  | nil => rfl
  | cons p ps ih =>
    rw [List.cons_append, plantAll, plantAll, ih, sizeOfAll, reachOfAll, List.cons_append,
      Nat.add_assoc]

namespace Builder

/-- The state after the calls of a phrase that becomes the node `n`. -/
def planted (b : Builder) (n : Node) (size reach : Nat) : Builder :=
  { b.attach n with count := b.count + size, cursor := reach }

lemma run_append (b : Builder) (xs ys : List BuildCall) :
    b.run (xs ++ ys) = (b.run xs).run ys := List.foldl_append

lemma planted_of_opened {b : Builder} {o : OpenNode} {rest : List OpenNode}
    (h : b.opened = o :: rest) (n : Node) (size reach : Nat) :
    b.planted n size reach =
      { b with
        opened := { o with children := n :: o.children } :: rest
        count := b.count + size
        cursor := reach } := by
  simp [planted, attach, h]

mutual

/-- The calls of a phrase attach its planted node. -/
theorem run_calls : ∀ (p : Phrase) (b : Builder),
    b.run p.calls = b.planted (p.plant b.count b.cursor) p.size (p.reach b.cursor)
  | .leaf kind field span, b => rfl
  | .node kind field children, b => by
    have hbody := run_callsOf children
      { b with opened := ⟨b.count, kind, field, []⟩ :: b.opened, count := b.count + 1 } rfl
    simp only [Phrase.calls, run, List.foldl_cons, List.foldl_append, List.foldl_nil] at hbody ⊢
    rw [step, hbody]
    simp only [step, List.append_nil, planted, attach, OpenNode.close, Phrase.plant, Phrase.size,
      Phrase.reach, List.reverse_reverse]
    cases b.opened <;> simp only [Nat.add_assoc, Nat.add_comm 1]

/-- The calls of some phrases inside an open node attach their planted nodes to it. -/
theorem run_callsOf : ∀ (ps : List Phrase) (b : Builder) {o : OpenNode} {rest : List OpenNode},
    b.opened = o :: rest →
      b.run (callsOf ps) =
        { b with
          opened :=
            { o with children := (plantAll b.count b.cursor ps).reverse ++ o.children } :: rest
          count := b.count + sizeOfAll ps
          cursor := reachOfAll b.cursor ps }
  | [], b, o, rest, h => by
    simp only [callsOf, run, List.foldl_nil, plantAll, List.reverse_nil, List.nil_append,
      sizeOfAll, Nat.add_zero, reachOfAll]
    rw [← h]
  | p :: ps, b, o, rest, h => by
    rw [callsOf, run_append, run_calls p b, planted_of_opened h, run_callsOf ps _ rfl]
    simp only [plantAll, List.reverse_cons, List.append_assoc, List.singleton_append, sizeOfAll,
      reachOfAll, Nat.add_assoc]

end

end Builder

/-- A phrase always builds, and its planted node is the only one at the top. -/
theorem build_calls (source : Text) (p : Phrase) :
    Tree.build source p.calls = .ok ⟨source, [p.plant 0 0]⟩ := by
  simp [Tree.build, Builder.run_calls, Builder.planted, Builder.attach, Builder.empty,
    Builder.finish]

/-- The terminals that the grammar sees of a source. -/
def limited (source : Text) : List Terminal := limitNesting (terminals source)

/-- The root of the tree of a source. -/
def rootOf (source : Text) : Node := (parseTerminals (limited source)).plant 0 0

/-- Every source has a tree with one node at the top. -/
theorem parse_eq (source : Text) : parse source = .ok ⟨source, [rootOf source]⟩ :=
  build_calls source _

lemma eq_rootOf_of_parse {source : Text} {root : Node}
    (h : parse source = .ok ⟨source, [root]⟩) : root = rootOf source := by
  rw [parse_eq] at h
  injection h with htree
  injection htree with _ htops
  exact (List.cons.inj htops).1.symm

end FishScript
