/-
# Syntax trees

A node has a number, which is its place in the order in which the nodes of the tree were
allocated, a kind, a role, a span and its children in source order. A tree is a source and the
nodes that stand at the top, the first of which is the root.

A node does not know its surroundings. Where they matter, a node is taken together with the node
that holds it and the siblings on its two sides; this is a `Site`, and the walks over a tree
list sites.
-/
import FishScript.Span
import FishScript.Text.Quoted
import FishScript.Tree.Kind

namespace FishScript

/-- A node of a syntax tree. -/
structure Node where
  /-- The number of nodes allocated before it. -/
  id : Nat
  /-- What it stands for. -/
  kind : NodeKind
  /-- Its role in the node that holds it. -/
  field : Option Field
  /-- Its place in the source. -/
  span : Span
  /-- The nodes below it, in source order. -/
  children : List Node
deriving Repr

namespace Node

/-- The node is more than punctuation. -/
def isNamed (n : Node) : Bool := n.kind.isNamed

/-- The node is source that fits nowhere. -/
def isError (n : Node) : Bool := n.kind == .error

/-- The children that are more than punctuation. -/
def namedChildren (n : Node) : List Node := n.children.filter isNamed

/-- The first named child with a role. -/
def childByField? (n : Node) (field : Field) : Option Node :=
  n.namedChildren.find? (·.field == some field)

/-- Among the children of a node that holds statements, the node is one of the statements: it has
no role and is no clause. -/
def isStatement (n : Node) : Bool := n.isNamed && n.field.isNone && !n.kind.isClause

/-- The statements of the body of a node. -/
def bodyStatements (n : Node) : List Node :=
  if n.kind.holdsStatements then n.children.filter isStatement else []

/-- The source text of a node, empty if its span is no slice of the source. -/
def text (n : Node) (source : Text) : Text := (n.span.text? source).getD []

/-- The node is a keyword with the given text. -/
def isKeyword (n : Node) (source : Text) (word : Text) : Bool :=
  n.kind == .keyword && n.text source == word

/-- Kind, span and text of a node on one line. -/
def describe (n : Node) (source : Text) : Text :=
  n.kind.name.toList ++ '@' :: (Text.ofNat n.span.start ++ '.' :: '.' ::
    (Text.ofNat n.span.stop ++ ' ' :: (n.text source).quoted))

end Node

/-! ## Walks -/

mutual

/-- A node and the nodes below it, each before the nodes below it. -/
def Node.preorder : Node → List Node
  | ⟨id, kind, field, span, children⟩ => ⟨id, kind, field, span, children⟩ :: preorderAll children

/-- The nodes of a list and the nodes below them. -/
def preorderAll : List Node → List Node
  | [] => []
  | n :: rest => n.preorder ++ preorderAll rest

end

/-- A node with its surroundings. -/
structure Site where
  /-- The node. -/
  node : Node
  /-- The node that holds it. -/
  parent : Option Node
  /-- The siblings before it, the nearest first. -/
  before : List Node
  /-- The siblings after it, the nearest first. -/
  after : List Node

namespace Site

/-- A node that stands at the top. -/
def top (node : Node) : Site := ⟨node, none, [], []⟩

/-- The sites of the children from some place on; `before` are those before the place, the
nearest first. -/
def childrenFrom (parent : Node) (before : List Node) : List Node → List Site
  | [] => []
  | n :: rest => ⟨n, some parent, before, rest⟩ :: childrenFrom parent (n :: before) rest

/-- The sites of the children of a node. -/
def children (parent : Node) : List Site := childrenFrom parent [] parent.children

/-- The nearest named sibling before the node. Punctuation has none. -/
def previousNamed? (s : Site) : Option Node :=
  if s.node.isNamed then s.before.find? Node.isNamed else none

/-- The nearest named sibling after the node. Punctuation has none. -/
def nextNamed? (s : Site) : Option Node :=
  if s.node.isNamed then s.after.find? Node.isNamed else none

end Site

mutual

/-- The sites of a node and of the nodes below it, each before the sites below it. -/
def Node.sites (parent : Option Node) (before after : List Node) : Node → List Site
  | ⟨id, kind, field, span, children⟩ =>
    let node : Node := ⟨id, kind, field, span, children⟩
    ⟨node, parent, before, after⟩ :: sitesOf node [] children

/-- The sites of the children of a node from some place on and of the nodes below them. -/
def sitesOf (parent : Node) (before : List Node) : List Node → List Site
  | [] => []
  | n :: rest => n.sites (some parent) before rest ++ sitesOf parent (n :: before) rest

end

/-! ## Trees -/

/-- Why an analysis, or the building of a tree, is refused. These are faults of the caller,
never findings about a script. -/
inductive Refusal
  /-- The tree has no root. -/
  | emptyTree
  /-- The tree has no node with the number. -/
  | unknownNode (id : Nat)
  /-- So many nodes were left open when a tree was finished. -/
  | unclosedNodes (count : Nat)
  /-- A node was closed while none was open. -/
  | noOpenNode
  /-- An autoloaded document does not say which function it should define. -/
  | missingAutoloadName
deriving DecidableEq, Repr

namespace Refusal

/-- The wording of a refusal. -/
def message : Refusal → Text
  | .emptyTree => "syntax tree is empty".toList
  | .unknownNode id =>
    "node ".toList ++ Text.ofNat id ++ " does not exist in this tree".toList
  | .unclosedNodes count =>
    "tree builder finished with ".toList ++ Text.ofNat count ++ " unclosed node(s)".toList
  | .noOpenNode => "finish_node called with no open node".toList
  | .missingAutoloadName => "document is autoloaded but has no autoload name".toList

end Refusal

/-- A source with its syntax. -/
structure Tree where
  /-- The source. -/
  source : Text
  /-- The nodes that no other node holds, in the order of their numbers. -/
  tops : List Node

namespace Tree

/-- The root, if there are nodes at all. -/
def root? (t : Tree) : Option Node := t.tops.head?

/-- The root, or the refusal of a tree without nodes. -/
def root (t : Tree) : Except Refusal Node :=
  match t.root? with
  | some n => .ok n
  | none => .error .emptyTree

/-- All nodes, in the order of their numbers. -/
def nodes (t : Tree) : List Node := preorderAll t.tops

/-- The number of nodes. -/
def size (t : Tree) : Nat := t.nodes.length

/-- The node with a number. -/
def node (t : Tree) (id : Nat) : Except Refusal Node :=
  match t.nodes[id]? with
  | some n => .ok n
  | none => .error (.unknownNode id)

/-- The sites of the root and of the nodes below it. -/
def sites (t : Tree) : List Site :=
  match t.root? with
  | some n => n.sites none [] []
  | none => []

end Tree

end FishScript
