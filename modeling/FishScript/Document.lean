/-
# Documents

What the rules need to know about a source besides its text. A function `name` that is not
defined is loaded from a file `name.fish` in a directory `functions`, so a document at such a
place is expected to define the function it is named after.
-/
import FishScript.Path
import FishScript.Tree.Basic

namespace FishScript

/-- A document that is analysed. -/
structure Document where
  /-- Where it is kept, if it is kept in a file. -/
  path : Option Text
  /-- The function for whose sake it is loaded, if it is autoloaded. -/
  autoloadName? : Option Text
deriving DecidableEq, Repr

namespace Document

/-- A document without a place, such as standard input. -/
def anonymous : Document := ⟨none, none⟩

/-- The function for whose sake the file with the given path components is loaded: a script in a
directory `functions` is loaded for the function that it is named after. -/
def autoloadedBy? (components : List Text) : Option Text := do
  let dir ← Path.fileName? (← Path.parent? components)
  if dir == "functions".toList && Path.isScript components then Path.stem? components else none

/-- The document in a file. -/
def ofPath (path : Text) : Document := ⟨some path, autoloadedBy? (Path.components path)⟩

/-- The document as one that is autoloaded under the given name, wherever it is kept. -/
def withAutoloadName (d : Document) (name : Text) : Document :=
  { d with autoloadName? := some name }

/-- The document is loaded on demand. -/
def isAutoloaded (d : Document) : Bool := d.autoloadName?.isSome

/-- The function it is expected to define, empty for a document that is not autoloaded. -/
def autoloadName (d : Document) : Text := d.autoloadName?.getD []

/-- An autoloaded document must say which function it is expected to define. -/
def check (d : Document) : Except Refusal Unit :=
  if d.isAutoloaded && d.autoloadName.isEmpty then .error .missingAutoloadName else .ok ()

end Document

end FishScript
