/-
# File trees

The files that a run can see, from the root of the file system down, and the look-up of paths in
them.
-/
import FishScript.Files.Bytes
import FishScript.Path

namespace FishScript

/-- What can stand at a path. -/
inductive FileTree
  /-- A regular file. -/
  | file (bytes : Bytes)
  /-- A directory with its entries by name. -/
  | directory (entries : List (Text × FileTree))
  /-- Something that the system refuses to show, in the words of the system. -/
  | refused (message : Text)
deriving Repr

/-- Why a path cannot be read. -/
inductive ReadFault
  /-- Nothing stands there. -/
  | missing
  /-- The path leads through something that is no directory. -/
  | notDirectory
  /-- A directory stands there. -/
  | isDirectory
  /-- The path or one of its names is longer than the system allows. -/
  | nameTooLong
  /-- The path has a character that no path can have. -/
  | zeroInName
  /-- The file is no text. -/
  | notText
  /-- The system refuses, in its own words. -/
  | refused (message : Text)
deriving DecidableEq, Repr

namespace ReadFault

/-- The wording of a fault. -/
def message : ReadFault → Text
  | .missing => "No such file or directory (os error 2)".toList
  | .notDirectory => "Not a directory (os error 20)".toList
  | .isDirectory => "Is a directory (os error 21)".toList
  | .nameTooLong => "File name too long (os error 36)".toList
  | .zeroInName => "file name contained an unexpected NUL byte".toList
  | .notText => "stream did not contain valid UTF-8".toList
  | .refused message => message

end ReadFault

/-- A way to look up what stands at a path. -/
abbrev Lookup := Text → Except ReadFault FileTree

namespace FileTree

/-- No files. -/
def empty : FileTree := .directory []

/-- The tree is a directory. -/
def isDirectory : FileTree → Bool
  | .directory _ => true
  | _ => false

/-- The tree is a regular file. -/
def isFile : FileTree → Bool
  | .file _ => true
  | _ => false

/-- The entries of a directory; of anything else, none. -/
def entries : FileTree → List (Text × FileTree)
  | .directory es => es
  | _ => []

/-- The entry with a name. -/
def child? (t : FileTree) (name : Text) : Option FileTree :=
  (t.entries.find? (·.1 == name)).map Prod.snd

/-- What stands below a tree under the given names. -/
def below? (t : FileTree) : List Text → Option FileTree
  | [] => some t
  | name :: names => (t.child? name).bind (·.below? names)

/-- The tree with another one put under the given names, and directories on the way where there
are none. A directory that is there already is not emptied. -/
def put (new : FileTree) : List Text → FileTree → FileTree
  | [], t => if new.isDirectory && new.entries.isEmpty && t.isDirectory then t else new
  | name :: names, t =>
    .directory ((t.entries.filter (·.1 != name))
      ++ [(name, put new names ((t.child? name).getD .empty))])

/-! ## Paths -/

/-- The longest name of a file, in bytes. -/
def maxName : Nat := 255

/-- The longest path, in bytes. -/
def maxPath : Nat := 4095

/-- Where the pieces of a path lead from a directory, as the names on the way from the root. -/
def follow (root : FileTree) (here : List Text) : List Text → Except ReadFault (List Text)
  | [] => .ok here
  | piece :: pieces =>
    match root.below? here with
    | some (.directory entries) =>
      if piece.isEmpty || piece == ['.'] then follow root here pieces
      else if piece == ['.', '.'] then follow root here.dropLast pieces
      else if maxName < piece.byteLength then .error .nameTooLong
      else if entries.any (·.1 == piece) then follow root (here ++ [piece]) pieces
      else .error .missing
    | some (.refused message) => .error (.refused message)
    | _ => .error .notDirectory

/-- Where a path leads from a directory. -/
def locate (root : FileTree) (here : List Text) (path : Text) : Except ReadFault (List Text) :=
  if path.contains '\x00' then .error .zeroInName
  else if path.isEmpty then .error .missing
  else if maxPath < path.byteLength then .error .nameTooLong
  else follow root (if Path.isAbsolute path then [] else here) (path.pieces '/')

/-- What stands at a path, seen from the directory with the names `here`. -/
def look (root : FileTree) (here : List Text) : Lookup := fun path =>
  (root.locate here path).bind fun names =>
    match root.below? names with
    | some t => .ok t
    | none => .error .missing

/-- The text of the file at a path. -/
def readText (root : FileTree) (here : List Text) (path : Text) : Except ReadFault Text :=
  (root.look here path).bind fun
    | .file bytes =>
      match bytes.text? with
      | some t => .ok t
      | none => .error .notText
    | .directory _ => .error .isDirectory
    | .refused message => .error (.refused message)

end FileTree

end FishScript
