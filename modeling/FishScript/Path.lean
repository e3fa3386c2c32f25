/-
# Paths

Paths are texts with slashes between their components. Empty components and single dots name
nothing and are dropped; two dots stay, they are no name of a file.
-/
import FishScript.Text.Basic

namespace FishScript.Path

/-- The components of a path. -/
def components (path : Text) : List Text :=
  (path.pieces '/').filter fun c => !c.isEmpty && c != ['.']

/-- The path does not depend on the working directory. -/
def isAbsolute (path : Text) : Bool := path.startsWith '/'

/-- The path names the working directory by a dot. -/
def isHere (path : Text) : Bool := path.startsWith '.' && (components path).isEmpty

/-- The path without the mark of the working directory, a dot and a slash, before it. -/
def withoutDot (path : Text) : Text := (Text.after? "./".toList path).getD path

/-- The path without the slash before it. -/
def withoutSlash (path : Text) : Text := (Text.after? ['/'] path).getD path

/-- The absolute path of names on the way from the root. -/
def ofNames : List Text → Text
  | [] => ['/']
  | names => names.flatMap ('/' :: ·)

/-- The first path does not come after the second when they are compared component by
component. -/
def le : List Text → List Text → Bool
  | [], _ => true
  | _ :: _, [] => false
  | a :: p, b :: q => if a == b then le p q else Text.le a b

/-- The path of an entry of a directory. -/
def join (dir name : Text) : Text :=
  if dir.isEmpty || dir.getLast? == some '/' then dir ++ name else dir ++ '/' :: name

/-! ## Where a path ends

A path is given by its components here. -/

/-- The path of the directory that holds what a path names. -/
def parent? (components : List Text) : Option (List Text) :=
  if components.isEmpty then none else some components.dropLast

/-- The name at the end of a path. Two dots are no name. -/
def fileName? (components : List Text) : Option Text :=
  components.getLast?.filter (· != "..".toList)

/-- A name before and after its last dot. A name that starts with its only dot, as those of hidden
files do, is not cut. -/
def cutName? (name : Text) : Option (Text × Text) :=
  (Text.cut? '.' name.reverse).bind fun (extension, stem) =>
    if stem.isEmpty then none else some (stem.reverse, extension.reverse)

/-- The name at the end of a path, without its extension if it has one. -/
def stem? (components : List Text) : Option Text :=
  (fileName? components).map fun name => ((cutName? name).map Prod.fst).getD name

/-- The extension of the name at the end of a path. -/
def extension? (components : List Text) : Option Text :=
  ((fileName? components).bind cutName?).map Prod.snd

/-- The extension of script files. -/
def scriptExtension : Text := "fish".toList

/-- The path is that of a script file. -/
def isScript (components : List Text) : Bool := extension? components == some scriptExtension

end FishScript.Path
