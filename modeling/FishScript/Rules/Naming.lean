/-
# Names of functions

The names are judged before anything else and in source order, so that each is compared with all
names before it.
-/
import FishScript.Document
import FishScript.Rules.Finding
import FishScript.Rules.Names

namespace FishScript.Naming

/-- A function definition and the node of its name. -/
structure NamedFunction where
  /-- The definition. -/
  definition : Node
  /-- Its name. -/
  name : Node

/-- The functions that have a name, among nodes. -/
def namedFunctions (nodes : List Node) : List NamedFunction :=
  (nodes.filter (·.kind == .functionDefinition)).filterMap fun f =>
    (f.childByField? .name).map (NamedFunction.mk f)

/-- The document should define another function first. -/
def isMisplaced (d : Document) (seen : DefinedNames) (name : Text) : Bool :=
  d.isAutoloaded && seen.noFunctionsYet && name != d.autoloadName

/-- What is wrong with a name, given the names before it. -/
def codes (d : Document) (seen : DefinedNames) (name : Text) : List Code :=
  (if seen.hasFunction name then [.duplicateFunctionName] else [])
    ++ (if isMisplaced d seen name then [.missingAutoloadedFunctionName]
      else if name.startsWith '_' then [] else [.privateHelperFunction])

/-- The findings at the names of functions, given the names before them. -/
def findings (source : Text) (d : Document) (seen : DefinedNames) :
    List NamedFunction → List Finding
  | [] => []
  | f :: rest =>
    let name := f.name.text source
    (codes d seen name).map (Finding.mk f.name (some f.definition))
      ++ findings source d (seen.addFunction name) rest

end FishScript.Naming
