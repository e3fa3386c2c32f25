/-
# Flags of variables

A universal variable outlives the script and is seen by every session. A variable is split at
colons when it is marked as a path variable, which happens by itself when its name ends in
`PATH`; the mark and the name should agree.
-/
import FishScript.Rules.Finding

namespace FishScript.Variables

/-- The options before the node of a site, back to the name of the command. -/
def optionsBefore (s : Site) : List Node :=
  ((((s.before.filter Node.isNamed).takeWhile (·.field != some .name)).filter
    (·.kind == .option)).reverse)

/-- An option makes the variable universal: the long option, or a short one in a cluster. -/
def isUniversal : Text → Bool
  | '-' :: '-' :: long => long == "universal".toList
  | '-' :: short => short.contains 'U'
  | _ => false

/-- An option says whether the variable is a path variable. -/
def isPathFlag (flag : Text) : Bool := flag == "--path".toList || flag == "--unpath".toList

/-- The name is one of a path variable. -/
def isPathName (name : Text) : Bool := "PATH".toList.isSuffixOf name

/-- The findings at the definition of a variable. -/
def rule : Rule := fun source s =>
  if s.node.kind != .variableDefinition then []
  else
    let flags := optionsBefore s
    let pathName := isPathName (s.node.text source)
    (match flags.find? fun f => isUniversal (f.text source) with
      | some flag => [.beside s flag .universalVariable]
      | none => [])
    ++ (match flags.find? fun f => isPathFlag (f.text source) with
      | some flag => if pathName then [] else [.beside s flag .pathFlag]
      | none => if pathName then [.here s .pathVariable] else [])

end FishScript.Variables
