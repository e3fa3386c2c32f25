/-
# Passes

A pass over a tree judges the names of all functions and then visits the nodes of the tree, each
before the nodes below it. At each node the rules are asked in turn and the first one that finds
something is heard, so that a node is reported for one reason only.
-/
import FishScript.Rules.Balance
import FishScript.Rules.Naming
import FishScript.Rules.Reachability
import FishScript.Rules.Variables
import FishScript.Rules.Wording

namespace FishScript

/-- The rules for single nodes, the most important first. -/
def siteRules : List Rule :=
  [Balance.rule, Variables.rule, Reachability.afterReturn, Reachability.trailingChain]

/-- The findings of the first rule that finds something. -/
def firstFindings (rules : List Rule) : Rule := fun source s =>
  match rules with
  | [] => []
  | rule :: rest =>
    match rule source s with
    | [] => firstFindings rest source s
    | findings => findings

namespace Finding

/-- The diagnostic of a finding. -/
def diagnostic (wording : Wording) (source : Text) (document : Document) (f : Finding) :
    Diagnostic :=
  ⟨f.code, f.code.defaultSeverity, f.node.span, wording source document f⟩

end Finding

/-- What a pass hands back. -/
structure Pass where
  /-- The findings at the names of functions, then those of the walk, in the order in which they
  were made. -/
  diagnostics : List Diagnostic
  /-- The names the document defines. -/
  names : DefinedNames

namespace Tree

/-- The findings at the names of functions. -/
def namingFindings (t : Tree) (root : Node) (document : Document) : List Finding :=
  Naming.findings t.source document .empty (Naming.namedFunctions root.preorder)

/-- The findings of the walk. -/
def walkFindings (t : Tree) (root : Node) : List Finding :=
  (root.sites none [] []).flatMap (firstFindings siteRules t.source)

/-- The functions and variables that a tree defines. -/
def definedNames (t : Tree) (root : Node) : DefinedNames :=
  let functionNames := (Naming.namedFunctions root.preorder).map (·.name.text t.source)
  let variableNames := (root.preorder.filter (·.kind == .variableDefinition)).map (·.text t.source)
  variableNames.foldl .addVariable (functionNames.foldl .addFunction .empty)

/-- A pass over a tree, with its diagnostics worded in a given way. -/
def pass (t : Tree) (document : Document) (wording : Wording) : Except Refusal Pass := do
  document.check
  let root ← t.root
  let findings := t.namingFindings root document ++ t.walkFindings root
  return ⟨findings.map (·.diagnostic wording t.source document), t.definedNames root⟩

/-- The diagnostics of a tree in the standard wording. -/
def diagnose (t : Tree) (document : Document) : Except Refusal (List Diagnostic) :=
  (·.diagnostics) <$> t.pass document .standard

end Tree

end FishScript
