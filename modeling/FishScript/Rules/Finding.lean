/-
# Findings

A rule says what is wrong and with which node. How this is worded is not its business.
-/
import FishScript.Diagnostic.Code
import FishScript.Tree.Basic

namespace FishScript

/-- A problem that a rule has found. -/
structure Finding where
  /-- The node that is blamed. -/
  node : Node
  /-- The node that holds it. -/
  parent : Option Node
  /-- What is wrong. -/
  code : Code
deriving Repr

/-- A rule for single nodes: the problems it finds at a site of a source. -/
abbrev Rule := Text → Site → List Finding

namespace Finding

/-- The node of a site is blamed. -/
def here (s : Site) (code : Code) : Finding := ⟨s.node, s.parent, code⟩

/-- A sibling of the node of a site is blamed. -/
def beside (s : Site) (sibling : Node) (code : Code) : Finding := ⟨sibling, s.parent, code⟩

/-- A child of the node of a site is blamed. -/
def below (s : Site) (child : Node) (code : Code) : Finding := ⟨child, some s.node, code⟩

end Finding

end FishScript
