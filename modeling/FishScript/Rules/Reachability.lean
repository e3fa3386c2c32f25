/-
# Unreachable code

Two rules. A statement of a function never runs when a statement before it always returns; and
what follows a command without a separator and without a connector never runs either.

Of the statements that may return, only `return` itself and a conditional all of whose branches
return are known to return always. A choice never counts, whatever its cases are.
-/
import FishScript.Rules.Finding

namespace FishScript

mutual

/-- Control never gets past a node. -/
def Node.alwaysReturns : Node → Bool
  | ⟨_, kind, _, _, children⟩ =>
    match kind with
    | .returnStatement => true
    | .ifStatement =>
      children.any (·.kind == .elseClause) && someReturns children && clausesReturn children
    | _ => false

/-- Among nodes, one is a statement past which control never gets. -/
def someReturns : List Node → Bool
  | [] => false
  | n :: rest => (n.isStatement && n.alwaysReturns) || someReturns rest

/-- Among nodes, every branch of a conditional has a statement past which control never gets. -/
def clausesReturn : List Node → Bool
  | [] => true
  | ⟨_, kind, _, _, children⟩ :: rest =>
    (if kind == .elseIfClause || kind == .elseClause then someReturns children else true)
      && clausesReturn rest

end

namespace Reachability

/-- A statement of a function after one that always returns. -/
def afterReturn : Rule := fun _ s =>
  if s.parent.any (·.kind == .functionDefinition) && s.node.isStatement && someReturns s.before
  then [.here s .unreachableCode] else []

/-- A sibling of this kind ends the statement before it. -/
def endsStatement : NodeKind → Bool
  | .terminator | .elseIfClause | .elseClause | .caseClause | .error => true
  | _ => false

/-- The nodes that follow a command on its statement, from the first on that no connector
joins; `joined` says that there was none so far. -/
def trailing (joined : Bool) : List Node → List Node
  | [] => []
  | n :: rest =>
    if endsStatement n.kind then []
    else if !n.isNamed then trailing joined rest
    else if joined && n.kind == .conditionalExecution then trailing joined rest
    else n :: trailing false rest

/-- What follows a command in a list of statements without being joined to it. -/
def trailingChain : Rule := fun _ s =>
  if (s.node.kind == .command || s.node.kind == .pipeline)
    && s.parent.any (·.kind.holdsStatements)
  then (trailing true s.after).map (.beside s · .unreachableCode) else []

end Reachability

end FishScript
