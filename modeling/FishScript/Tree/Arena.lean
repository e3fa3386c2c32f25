/-
# Arenas

The nodes of a tree as a list of records, each at the place that its number says. A record holds
the numbers of the nodes below it and links, by number too: to the node that holds it and to its
neighbours there. The records are made by the calls of the builder: a new record goes behind the
others, and its number among the children of the innermost open node. The links are filled in at
the end, in one pass over the records.

The tree that the same calls build holds its nodes inside one another, and its sites know what the
links say (`Tree.arena`).
-/
import FishScript.Tree.Builder

namespace FishScript

/-- The record of a node. -/
structure Slot where
  /-- What it stands for. -/
  kind : NodeKind
  /-- Its role in the node that holds it. -/
  field : Option Field
  /-- Its place in the source. -/
  span : Span
  /-- The nodes below it, in source order. -/
  children : List Nat
  /-- Those that are more than punctuation. -/
  namedChildren : List Nat
  /-- The node that holds it. -/
  parent : Option Nat
  /-- The sibling before it. -/
  previous : Option Nat
  /-- The sibling after it. -/
  next : Option Nat
  /-- The named sibling before it. -/
  previousNamed : Option Nat
  /-- The named sibling after it. -/
  nextNamed : Option Nat
deriving DecidableEq, Repr

namespace Slot

/-- A new record: no children and no links. -/
def bare (kind : NodeKind) (field : Option Field) (span : Span) : Slot :=
  ⟨kind, field, span, [], [], none, none, none, none, none⟩

/-- The record with one more child. -/
def push (child : Nat) (s : Slot) : Slot := { s with children := s.children ++ [child] }

/-- The record with links to its parent and to its neighbours. -/
def placed (parent : Nat) (previous next : Option Nat) (s : Slot) : Slot :=
  { s with parent := some parent, previous, next }

/-- The record with links to its named neighbours. -/
def placedNamed (previous next : Option Nat) (s : Slot) : Slot :=
  { s with previousNamed := previous, nextNamed := next }

end Slot

/-- A source with the records of its nodes. -/
structure Arena where
  /-- The source. -/
  source : Text
  /-- The records. -/
  slots : List Slot
  /-- The first node at the top. -/
  root : Option Nat
deriving DecidableEq, Repr

/-! ## Building -/

/-- The state between two calls. -/
structure ArenaBuilder where
  /-- The records so far. -/
  slots : List Slot
  /-- The open nodes, the innermost first. -/
  opened : List Nat
  /-- The nodes that no other node holds, in order. -/
  tops : List Nat
  /-- The greatest end of a leaf so far. -/
  cursor : Nat
  /-- The first fault. -/
  fault : Option Refusal
deriving DecidableEq, Repr

namespace ArenaBuilder

/-- The state before the first call. -/
def empty : ArenaBuilder := ⟨[], [], [], 0, none⟩

/-- Put a record behind the others, as the last child of the innermost open node. -/
def allocate (b : ArenaBuilder) (s : Slot) : ArenaBuilder :=
  match b.opened with
  | [] => { b with slots := b.slots ++ [s], tops := b.tops ++ [b.slots.length] }
  | parent :: _ =>
    { b with slots := (b.slots ++ [s]).modify parent (.push b.slots.length) }

/-- The span from the first of some children to the last, empty at the cursor if there are none. -/
def spanOf (slots : List Slot) (cursor : Nat) (children : List Nat) : Span :=
  match children.head?.bind (slots[·]?), children.getLast?.bind (slots[·]?) with
  | some first, some last => first.span.cover last.span
  | _, _ => .empty cursor

/-- The state after a call. -/
def step (b : ArenaBuilder) : BuildCall → ArenaBuilder
  | .start kind field =>
    { b.allocate (.bare kind field (.empty b.cursor)) with opened := b.slots.length :: b.opened }
  | .token kind field span =>
    { b.allocate (.bare kind field span) with cursor := max b.cursor span.stop }
  | .finish =>
    match b.opened with
    | [] => { b with fault := b.fault.or (some .noOpenNode) }
    | id :: rest =>
      { b with
        opened := rest
        slots := b.slots.modify id fun s => { s with span := spanOf b.slots b.cursor s.children } }

/-- The state after a sequence of calls. -/
def run (b : ArenaBuilder) (calls : List BuildCall) : ArenaBuilder := calls.foldl step b

end ArenaBuilder

/-! ## Links -/

namespace Slot

/-- Set links in the records of siblings, of which `previous` comes before the first. -/
def chain (set : Option Nat → Option Nat → Slot → Slot) (previous : Option Nat) :
    List Nat → List Slot → List Slot
  | [], slots => slots
  | id :: rest, slots => chain set (some id) rest (slots.modify id (set previous rest.head?))

/-- The children of a record that are more than punctuation. -/
def namedOf (slots : List Slot) (s : Slot) : List Nat :=
  s.children.filter fun id => slots[id]?.any (·.kind.isNamed)

/-- Set the links in the records of the children of a node, and list the named ones with it. -/
def linkChildren (slots : List Slot) (parent : Nat) : List Slot :=
  match slots[parent]? with
  | none => slots
  | some p =>
    let named := namedOf slots p
    (chain placedNamed none named (chain (placed parent) none p.children slots)).modify parent
      fun s => { s with namedChildren := named }

/-- Set all links. -/
def link (slots : List Slot) : List Slot := (List.range slots.length).foldl linkChildren slots

end Slot

namespace ArenaBuilder

/-- The arena over a source, if every node is closed and none was closed that was not open. -/
def finish (b : ArenaBuilder) (source : Text) : Except Refusal Arena :=
  match b.fault with
  | some fault => .error fault
  | none =>
    if b.opened.isEmpty then .ok ⟨source, Slot.link b.slots, b.tops.head?⟩
    else .error (.unclosedNodes b.opened.length)

end ArenaBuilder

namespace Arena

/-- The arena over a source that a sequence of calls describes. -/
def build (source : Text) (calls : List BuildCall) : Except Refusal Arena :=
  (ArenaBuilder.empty.run calls).finish source

/-! ## Walks -/

/-- One step of a walk with a stack, whose top comes first: the node that is visited, and the stack
after it, with the children of the node on top. -/
def visit (a : Arena) : List Nat → Option (Nat × List Nat)
  | [] => none
  | id :: stack => some (id, (a.slots[id]?.elim [] Slot.children) ++ stack)

/-- The nodes that a walk visits in its first `steps` steps. -/
def walk (a : Arena) : Nat → List Nat → List Nat
  | 0, _ => []
  | steps + 1, stack =>
    match a.visit stack with
    | none => []
    | some (id, stack') => id :: a.walk steps stack'

end Arena

/-! ## The arena of a tree -/

/-- What the record of a node says, read off its site. -/
def Slot.ofSite (s : Site) : Slot where
  kind := s.node.kind
  field := s.node.field
  span := s.node.span
  children := s.node.children.map Node.id
  namedChildren := s.node.namedChildren.map Node.id
  parent := s.parent.map Node.id
  previous := s.before.head?.map Node.id
  next := s.after.head?.map Node.id
  previousNamed := s.previousNamed?.map Node.id
  nextNamed := s.nextNamed?.map Node.id

namespace Tree

/-- The sites of all nodes, in the order of their numbers. -/
def allSites (t : Tree) : List Site := t.tops.flatMap fun n => n.sites none [] []

/-- The arena of a tree. -/
def arena (t : Tree) : Arena := ⟨t.source, t.allSites.map Slot.ofSite, t.root?.map Node.id⟩

end Tree

end FishScript
