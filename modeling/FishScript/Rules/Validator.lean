/-
# Validation

A pass while it is going on. The names of the functions are checked one after the other, then the
nodes are visited, and every check is handed the names seen so far and hands them on with those that
it has seen itself. At a node the rules are asked in turn until one finds something; the others are
not asked, and so see nothing there.

What a check blames is looked up in the tree by its number, so a pass may be refused half way.
-/
import FishScript.Rules.Pass

namespace FishScript

/-- A check of what a pass comes to, given the names seen so far: its findings, and the names seen
after it. -/
abbrev Check (α : Type) := α → DefinedNames → List Finding × DefinedNames

/-- A rule with a memory. -/
abbrev Detector := Text → Check Site

namespace Detector

/-- A rule that remembers nothing. -/
def ofRule (rule : Rule) : Detector := fun source s seen => (rule source s, seen)

/-- The rule for the flags of variables remembers the variable. -/
def ofVariables : Detector := fun source s seen =>
  if s.node.kind != .variableDefinition then ([], seen)
  else (Variables.rule source s, seen.addVariable (s.node.text source))

/-- The rules of the walk, the most important first. -/
def walk : List Detector :=
  [ofRule Balance.rule, ofVariables, ofRule Reachability.afterReturn,
    ofRule Reachability.trailingChain]

/-- Ask the rules in turn until one finds something. -/
def firstMatch : List Detector → Detector
  | [], _, _, seen => ([], seen)
  | detect :: rest, source, s, seen =>
    let (found, seen) := detect source s seen
    if found.isEmpty then firstMatch rest source s seen else (found, seen)

end Detector

/-- Judge the name of a function by the names before it, and remember it. -/
def Naming.check (source : Text) (d : Document) : Check NamedFunction := fun f seen =>
  let name := f.name.text source
  ((codes d seen name).map (Finding.mk f.name (some f.definition)), seen.addFunction name)

namespace Tree

variable {α : Type}

/-- Make diagnostics of findings, behind others. -/
def emit (t : Tree) (document : Document) (wording : Wording) (found : List Finding)
    (out : List Diagnostic) : Except Refusal (List Diagnostic) :=
  found.foldlM (fun out f => do
    let n ← t.node f.node.id
    return out ++ [Finding.diagnostic wording t.source document { f with node := n }]) out

/-- One step of a pass. -/
def visit (t : Tree) (document : Document) (wording : Wording) (check : Check α) (p : Pass)
    (x : α) : Except Refusal Pass := do
  let (found, seen) := check x p.names
  let diagnostics ← t.emit document wording found p.diagnostics
  return ⟨diagnostics, seen⟩

/-- A pass over a tree, step by step. -/
def validate (t : Tree) (document : Document) (wording : Wording) : Except Refusal Pass := do
  document.check
  let root ← t.root
  let named ← (Naming.namedFunctions root.preorder).foldlM
    (t.visit document wording (Naming.check t.source document)) ⟨[], .empty⟩
  (root.sites none [] []).foldlM
    (t.visit document wording (Detector.firstMatch Detector.walk t.source)) named

end Tree

end FishScript
