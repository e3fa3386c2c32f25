/-
# Dumps of trees

A dump shows the named nodes of a tree as nested parentheses. A node without named children
carries its text between quotes, and a child with a role has the label of the role before it.
-/
import FishScript.Tree.Basic

namespace FishScript

/-- What stands before a child with a role. -/
def Field.lead : Option Field → Text
  | none => []
  | some field => field.label.toList ++ [':', ' ']

mutual

/-- The dump of a node over a source. -/
def Node.dump (source : Text) : Node → Text
  | ⟨_, kind, _, span, children⟩ =>
    '(' :: (kind.name.toList
      ++ (if children.any Node.isNamed then dumpAll source children
        else ' ' :: Text.quoted ((span.text? source).getD []))
      ++ [')'])

/-- The dumps of the named nodes of a list, each with a space and its label before it. -/
def dumpAll (source : Text) : List Node → Text
  | [] => []
  | n :: rest =>
    if n.isNamed then ' ' :: (Field.lead n.field ++ n.dump source) ++ dumpAll source rest
    else dumpAll source rest

end

end FishScript
