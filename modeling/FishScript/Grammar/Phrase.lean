/-
# Phrases

A phrase is what the grammar makes of a stretch of terminals: a leaf that stands for one
terminal, or a node that holds phrases. It carries spans only at its leaves; the builder of
trees finds those of the nodes.
-/
import FishScript.Grammar.Terminal
import FishScript.Tree.Builder

namespace FishScript

/-- What the grammar makes of a stretch of terminals. -/
inductive Phrase
  /-- One terminal. -/
  | leaf (kind : NodeKind) (field : Option Field) (span : Span)
  /-- Phrases that belong together. -/
  | node (kind : NodeKind) (field : Option Field) (children : List Phrase)
deriving Repr

mutual

/-- The calls that build the node of a phrase. -/
def Phrase.calls : Phrase → List BuildCall
  | .leaf kind field span => [.token kind field span]
  | .node kind field children => .start kind field :: (callsOf children ++ [.finish])

/-- The calls that build the nodes of phrases, one after the other. -/
def callsOf : List Phrase → List BuildCall
  | [] => []
  | p :: rest => p.calls ++ callsOf rest

end

end FishScript
