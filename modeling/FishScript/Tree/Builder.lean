/-
# Building trees

A tree is described by a sequence of calls: open a node, add a leaf, close the innermost open
node. Nodes are numbered in the order of the calls that open or add them. A closed node spans
from the start of its first child to the end of its last; without children it is empty and
stands at the greatest end of the leaves added so far.

Every sequence of calls can be run. Whether it describes a tree is told at the end.
-/
import FishScript.Tree.Basic

namespace FishScript

/-- A call of the builder. -/
inductive BuildCall
  /-- Open a node as the last child of the innermost open one. -/
  | start (kind : NodeKind) (field : Option Field)
  /-- Add a leaf there. -/
  | token (kind : NodeKind) (field : Option Field) (span : Span)
  /-- Close the innermost open node. -/
  | finish
deriving DecidableEq, Repr

/-- A node that is still open. -/
structure OpenNode where
  /-- Its number. -/
  id : Nat
  /-- What it stands for. -/
  kind : NodeKind
  /-- Its role in the node that holds it. -/
  field : Option Field
  /-- The children so far, the last first. -/
  children : List Node

namespace OpenNode

/-- The span of a node with the given children, the last first. -/
def spanOf (cursor : Nat) (children : List Node) : Span :=
  match children.getLast?, children.head? with
  | some first, some last => first.span.cover last.span
  | _, _ => .empty cursor

/-- The node closed, when the greatest end of a leaf so far is `cursor`. -/
def close (n : OpenNode) (cursor : Nat) : Node :=
  ⟨n.id, n.kind, n.field, spanOf cursor n.children, n.children.reverse⟩

end OpenNode

/-- The state between two calls. -/
structure Builder where
  /-- The open nodes, the innermost first. -/
  opened : List OpenNode
  /-- The closed nodes that no other node holds, the last first. -/
  tops : List Node
  /-- The number of nodes so far. -/
  count : Nat
  /-- The greatest end of a leaf so far. -/
  cursor : Nat
  /-- A node was closed while none was open. -/
  underflow : Bool

namespace Builder

/-- The state before the first call. -/
def empty : Builder := ⟨[], [], 0, 0, false⟩

/-- Add a complete node as the last child of the innermost open one. -/
def attach (b : Builder) (n : Node) : Builder :=
  match b.opened with
  | [] => { b with tops := n :: b.tops }
  | o :: rest => { b with opened := { o with children := n :: o.children } :: rest }

/-- The state after a call. -/
def step (b : Builder) : BuildCall → Builder
  | .start kind field =>
    { b with opened := ⟨b.count, kind, field, []⟩ :: b.opened, count := b.count + 1 }
  | .token kind field span =>
    { (b.attach ⟨b.count, kind, field, span, []⟩) with
      count := b.count + 1, cursor := max b.cursor span.stop }
  | .finish =>
    match b.opened with
    | [] => { b with underflow := true }
    | o :: rest => attach { b with opened := rest } (o.close b.cursor)

/-- The number that a call gives to the node it opens or adds. -/
def issued? (b : Builder) : BuildCall → Option Nat
  | .finish => none
  | _ => some b.count

/-- The state after a sequence of calls. -/
def run (b : Builder) (calls : List BuildCall) : Builder := calls.foldl step b

/-- The numbers that the calls of a sequence give. -/
def issued (b : Builder) : List BuildCall → List (Option Nat)
  | [] => []
  | call :: calls => b.issued? call :: issued (b.step call) calls

/-- The tree over a source, if every node is closed and none was closed that was not open. -/
def finish (b : Builder) (source : Text) : Except Refusal Tree :=
  if b.underflow then .error .noOpenNode
  else if b.opened.isEmpty then .ok ⟨source, b.tops.reverse⟩
  else .error (.unclosedNodes b.opened.length)

end Builder

namespace Tree

/-- The tree over a source that a sequence of calls describes. -/
def build (source : Text) (calls : List BuildCall) : Except Refusal Tree :=
  (Builder.empty.run calls).finish source

end Tree

end FishScript
