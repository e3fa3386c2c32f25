/-
# Defined names

The functions and variables that a document has been seen to define. A pass starts without any
and hands them back with its diagnostics.
-/
import FishScript.Text.Basic

namespace FishScript

/-- The names seen so far, in the order of their first definitions. -/
structure DefinedNames where
  /-- The functions. -/
  functionNames : List Text
  /-- The variables. -/
  variableNames : List Text
deriving DecidableEq, Repr

namespace DefinedNames

/-- No names. -/
def empty : DefinedNames := ⟨[], []⟩

/-- Add a name to a list that does not hold it. -/
def insert (name : Text) (names : List Text) : List Text :=
  if names.contains name then names else names ++ [name]

/-- A function of this name has been seen. -/
def hasFunction (n : DefinedNames) (name : Text) : Bool := n.functionNames.contains name

/-- A variable of this name has been seen. -/
def hasVariable (n : DefinedNames) (name : Text) : Bool := n.variableNames.contains name

/-- No function has been seen. -/
def noFunctionsYet (n : DefinedNames) : Bool := n.functionNames.isEmpty

/-- The names after a function. -/
def addFunction (n : DefinedNames) (name : Text) : DefinedNames :=
  { n with functionNames := insert name n.functionNames }

/-- The names after a variable. -/
def addVariable (n : DefinedNames) (name : Text) : DefinedNames :=
  { n with variableNames := insert name n.variableNames }

/-- Names in the order of their characters' code points, which is that of their bytes. -/
def sorted (names : List Text) : List Text := names.mergeSort Text.le

end DefinedNames

end FishScript
