/-
# The wording of diagnostics

A wording makes the message of a finding. The standard wording names the offender by its text in
the source; another one may be used in its place, which changes nothing else of a diagnostic.
-/
import FishScript.Diagnostic.Basic
import FishScript.Document
import FishScript.Rules.Balance

namespace FishScript

/-- How findings in a source of a document are put into words. -/
abbrev Wording := Text → Document → Finding → Text

namespace Wording

/-- A text between single quotes. -/
def named (t : Text) : Text := '\'' :: (t ++ ['\''])

/-- The variable that is defined beside a node. -/
def definedName? (source : Text) (f : Finding) : Option Text :=
  f.parent.bind fun p =>
    (p.namedChildren.find? (·.kind == .variableDefinition)).map (·.text source)

/-- The standard wording. -/
def standard : Wording := fun source document f =>
  let text := f.node.text source
  match f.code with
  | .missingEnd =>
    match Balance.opener? f.node source with
    | some word => "missing 'end' for this ".toList ++ named word ++ " block".toList
    | none => f.code.summary.toList
  | .extraEnd => "'end' without a block to close".toList
  | .syntaxError => "unexpected ".toList ++ named text.firstLine
  | .unreachableCode => f.code.summary.toList
  | .duplicateFunctionName =>
    "function ".toList ++ named text ++ " is already defined in this file".toList
  | .missingAutoloadedFunctionName =>
    "autoloaded file should define ".toList ++ named document.autoloadName
      ++ " first, found ".toList ++ named text
  | .privateHelperFunction =>
    "helper function ".toList ++ named text ++ " should be named ".toList ++ named ('_' :: text)
  | .universalVariable =>
    named text ++ " makes ".toList
      ++ named ((definedName? source f).getD "the variable".toList)
      ++ " universal, shared with every fish session".toList
  | .pathVariable => named text ++ " ends in PATH; define it with --path".toList
  | .pathFlag =>
    named text ++ " used on ".toList ++ named ((definedName? source f).getD "a variable".toList)
      ++ ", which does not end in PATH".toList

/-- Only the kind of the node that is blamed and the function the document is loaded for. -/
def terse : Wording := fun _ document f =>
  f.node.kind.name.toList ++ '/' :: document.autoloadName

end Wording

end FishScript
