/-
# Balance of blocks

Every error node gets one finding. A block without its `end` and an `end` without a block are the
common causes; whatever else does not fit is a syntax error.
-/
import FishScript.Grammar.Terminal
import FishScript.Rules.Finding

namespace FishScript

/-- The texts of the keywords directly below a node, each with its node. -/
def Node.keywords (n : Node) (source : Text) : List (Node × Text) :=
  (n.children.filter (·.kind == .keyword)).map fun c => (c, c.text source)

namespace Balance

/-- The first word directly below a node that opens a block. -/
def opener? (n : Node) (source : Text) : Option Text :=
  ((n.keywords source).map Prod.snd).find? fun w => (Block.ofOpener? w).isSome

/-- The last child, or the last of those that are more than punctuation, is an `end`. -/
def endsWithEnd (n : Node) (source : Text) : Bool :=
  [n.children.getLast?, n.namedChildren.getLast?].any
    (·.any (·.isKeyword source "end".toList))

/-- Keywords are punctuation, so it is the last child that counts. -/
theorem endsWithEnd_eq (n : Node) (source : Text) :
    endsWithEnd n source = n.children.getLast?.any (·.isKeyword source "end".toList) := by
  have hnamed : n.namedChildren.getLast?.any (·.isKeyword source "end".toList) = false := by
    cases hlast : n.namedChildren.getLast? with
    | none => rfl
    | some c =>
      have hc : c.isNamed = true :=
        (List.mem_filter.1 (List.mem_of_getLast? hlast)).2
      have hkind : (c.kind == NodeKind.keyword) = false := beq_eq_false_iff_ne.2 fun hkeyword => by
        simp [Node.isNamed, hkeyword, NodeKind.isNamed] at hc
      simp [Node.isKeyword, hkind]
  rw [endsWithEnd, List.any_cons, List.any_cons, List.any_nil, hnamed, Bool.or_false, Bool.or_false]

/-- The first `end` among keywords that closes none of the blocks opened before it, when `depth`
blocks are open. -/
def unmatchedEnd? (depth : Nat) : List (Node × Text) → Option Node
  | [] => none
  | (n, w) :: rest =>
    if (Block.ofOpener? w).isSome then unmatchedEnd? (depth + 1) rest
    else if w == "end".toList then
      match depth with
      | 0 => some n
      | d + 1 => unmatchedEnd? d rest
    else unmatchedEnd? depth rest

/-- The finding at an error node. -/
def rule : Rule := fun source s =>
  if !s.node.isError then []
  else if (opener? s.node source).isSome && !endsWithEnd s.node source then [.here s .missingEnd]
  else match unmatchedEnd? 0 (s.node.keywords source) with
    | some n => [.below s n .extraEnd]
    | none => [.here s .syntaxError]

end Balance

end FishScript
