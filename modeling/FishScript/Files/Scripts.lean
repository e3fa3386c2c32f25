/-
# Scripts in directories

The script files below a directory, without those that ignore files rule out. A walk starts at a
directory that is named by a path, and its scripts are named by paths that continue this one.
Ignore files of the directories around the start count too; if something is wrong with them the
walk fails, while faults of ignore files inside are passed over.
-/
import FishScript.Ignore.Level

namespace FishScript

open Ignore (IgnoreFault Level)

/-! ## Walks -/

/-- Why a walk fails. -/
inductive WalkFault
  /-- Something is wrong with ignore files around the start. -/
  | rules (faults : List IgnoreFault)
  /-- A directory cannot be opened. -/
  | directory (path : Text) (cause : ReadFault)
deriving DecidableEq, Repr

namespace WalkFault

/-- The wording of a fault. -/
def message : WalkFault → Text
  | .rules faults => Text.joined ['\n'] (faults.map IgnoreFault.message)
  | .directory path cause =>
    path ++ ": IO error for operation on ".toList ++ path ++ ": ".toList ++ cause.message

end WalkFault

/-- The directory in which a walk is. -/
structure WalkPlace where
  /-- Its path, as it follows from that of the start. -/
  path : Text
  /-- Its absolute path. -/
  absolutePath : Text
  /-- What the ignore files say on the way to it from the start, innermost first. -/
  inner : List Level
  /-- What the ignore files around the start say, innermost first. -/
  outer : List Level

namespace WalkPlace

/-- The start of a walk: the directory at a path that leads to the given names. -/
def start (look : Lookup) (path : Text) (names : List Text) : WalkPlace where
  path := path
  absolutePath := Path.ofNames names
  inner := [Level.ofDirectory look path]
  outer := ((List.range names.length).map fun n =>
    Level.ofDirectory look (Path.ofNames (names.take n))).reverse

/-- The directory with the given name in the one where a walk is. -/
def enter (look : Lookup) (w : WalkPlace) (name : Text) : WalkPlace :=
  let path := Path.join w.path name
  { w with
    path := path
    absolutePath := Path.join w.absolutePath name
    inner := Level.ofDirectory look path :: w.inner }

/-- What is wrong with the ignore files around the start, outermost first. -/
def outerFaults (w : WalkPlace) : List IgnoreFault := w.outer.reverse.flatMap Level.faults

/-- The levels that speak of an entry, innermost first, with its path as their rules see it. -/
def views (w : WalkPlace) (name : Text) : List (Level × Text) :=
  (w.inner.map fun l => (l, l.view (Path.join w.path name)))
    ++ (w.outer.map fun l => (l, l.view (Path.join w.absolutePath name)))

/-- The walk passes an entry over. -/
def skips (w : WalkPlace) (name : Text) (isDirectory : Bool) : Bool :=
  Ignore.isSkipped (w.views name) name isDirectory

end WalkPlace

/-! ## Scripts -/

mutual

/-- The scripts at an entry of the directory where a walk is, if it is not passed over. -/
def FileTree.scripts (look : Lookup) (w : WalkPlace) (name : Text) :
    FileTree → Except WalkFault (List Text)
  | .file _ =>
    let path := Path.join w.path name
    .ok (if Path.isScript (Path.components path) then [path] else [])
  | .directory entries =>
    let inside := w.enter look name
    match look inside.path with
    | .ok _ => scriptsAmong look inside entries
    | .error cause => .error (.directory inside.path cause)
  | .refused _ => .ok []

/-- The scripts at entries of the directory where a walk is. -/
def scriptsAmong (look : Lookup) (w : WalkPlace) :
    List (Text × FileTree) → Except WalkFault (List Text)
  | [] => .ok []
  | (name, t) :: rest => do
    let first ← if w.skips name t.isDirectory then .ok [] else t.scripts look w name
    return first ++ (← scriptsAmong look w rest)

end

namespace FileTree

/-- The paths of the scripts that a path stands for: those below it if it is a directory, in the
order of their components, else itself. A directory that has the name of standard input stands for
nothing. -/
def expand (root : FileTree) (here : List Text) (path : Text) : Except WalkFault (List Text) :=
  match root.look here path, root.locate here path with
  | .ok (.directory entries), .ok names =>
    if path.startsWith '-' && Path.components path == [['-']] then .ok []
    else
      let w := WalkPlace.start (root.look here) path names
      match w.outerFaults with
      | [] => (scriptsAmong (root.look here) w entries).map fun paths =>
        paths.mergeSort fun p q => Path.le (Path.components p) (Path.components q)
      | faults => .error (.rules faults)
  | _, _ => .ok [path]

end FileTree

end FishScript
