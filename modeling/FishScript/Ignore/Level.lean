/-
# Ignore files of a directory

Every directory may have ignore files, and they speak of everything below it. Of several that say
something of an entry the innermost counts. The files of version control count only inside a
working copy, up to its top, and only where the others say nothing.
-/
import FishScript.Ignore.Rule

namespace FishScript.Ignore

/-! ## Faults -/

/-- Something that is wrong with the ignore files of a directory. -/
inductive IgnoreFault
  /-- A line of a file has no rule. -/
  | line (path : Text) (number : Nat) (cause : LineFault)
  /-- A file that leads to the others cannot be read. -/
  | unreadable (path : Text) (cause : ReadFault)
deriving DecidableEq, Repr

namespace IgnoreFault

/-- The wording of a fault. -/
def message : IgnoreFault → Text
  | .line path number cause =>
    path ++ ": line ".toList ++ Text.ofNat number ++ ": ".toList ++ cause.message
  | .unreadable path cause => path ++ ": ".toList ++ cause.message

end IgnoreFault

/-! ## The files of version control -/

/-- The first line of the file at a path. Without it, what is wrong, which is nothing where no file
can be opened or the file is empty. -/
def firstLineAt (look : Lookup) (path : Text) :
    Except (List IgnoreFault) Text :=
  match look path with
  | .ok (.file bytes) =>
    match bytes.lines with
    | [] => .error []
    | b :: _ =>
      match b.text? with
      | some t => .ok t.firstLine
      | none => .error [.unreadable path .notText]
  | .ok (.directory _) => .error [.unreadable path .isDirectory]
  | _ => .error []

/-- The directory in which version control keeps what belongs to a working copy with the given top.
One of several working copies has a file in its place. This file names the directory that belongs
to the one copy, and a file in there names the directory that belongs to all of them. -/
def commonDirectory (look : Lookup) (top : Text) :
    Except (List IgnoreFault) Text :=
  let git := Path.join top ".git".toList
  match look git with
  | .ok (.file _) => do
    let line ← firstLineAt look git
    match Text.after? "gitdir: ".toList line with
    | none => .error []
    | some own =>
      let common ← firstLineAt look (Path.join own "commondir".toList)
      return if common.startsWith '.' then Path.join own common else common
  | _ => .ok git

/-! ## Levels -/

/-- What the ignore files of a directory say. -/
structure Level where
  /-- The path of the directory, as it is written. -/
  path : Text
  /-- The rules for all tools. -/
  rules : List Rule
  /-- The rules of version control. -/
  gitRules : List Rule
  /-- The rules of version control that are not part of the working copy. -/
  gitExcludes : List Rule
  /-- The directory is the top of a working copy. -/
  hasGit : Bool
  /-- What is wrong with the files. -/
  faults : List IgnoreFault
deriving Repr

namespace Level

/-- What the ignore files of the directory at a path say. -/
def ofDirectory (look : Lookup) (path : Text) : Level :=
  let has (name : String) : Bool := (look (Path.join path name.toList)).isOk
  let read (path : Text) : List Rule × List IgnoreFault :=
    let f := RuleFile.ofPath look path
    (f.rules, f.reported.map fun (number, cause) => .line path number cause)
  let (rules, faults) := read (Path.join path ".ignore".toList)
  let (gitRules, gitFaults) := read (Path.join path ".gitignore".toList)
  let (gitExcludes, excludeFaults) := match commonDirectory look path with
    | .ok common => read (Path.join common "info/exclude".toList)
    | .error faults => ([], faults)
  { path, rules, gitRules, gitExcludes
    hasGit := has ".git" || has ".jj"
    faults := faults ++ gitFaults ++ excludeFaults }

/-- A path as the rules of a level see it: without the path of the directory before it. Paths are
compared as they are written, except that the mark of the working directory before a path is
dropped once from that of the directory and twice from that of the entry. A directory with more
such marks is not recognised, and its rules then see the path of the entry as it is. -/
def view (l : Level) (path : Text) : Text :=
  let path := Path.withoutDot (Path.withoutDot path)
  let directory := Path.withoutDot l.path
  if Path.isHere directory || !path.contains '/' then path
  else match Text.after? directory path with
    | some rest => Path.withoutSlash rest
    | none => path

end Level

/-! ## Verdicts -/

/-- What the files for all tools say of an entry. The levels come innermost first, each with the
path of the entry as its rules see it. -/
def toolVerdict? (isDirectory : Bool) (views : List (Level × Text)) : Option Verdict :=
  views.findSome? fun (l, path) => verdict? l.rules path isDirectory

/-- What files of version control, chosen by `rules`, say of an entry up to the top of the working
copy. -/
def gitVerdict? (rules : Level → List Rule) (isDirectory : Bool) :
    List (Level × Text) → Option Verdict
  | [] => none
  | (l, path) :: outer =>
    (verdict? (rules l) path isDirectory).or
      (if l.hasGit then none else gitVerdict? rules isDirectory outer)

/-- What the ignore files say of an entry. -/
def entryVerdict? (isDirectory : Bool) (views : List (Level × Text)) : Option Verdict :=
  let git (rules : Level → List Rule) : Option Verdict :=
    if views.any (·.1.hasGit) then gitVerdict? rules isDirectory views else none
  ((toolVerdict? isDirectory views).or (git Level.gitRules)).or (git Level.gitExcludes)

/-- An entry with the given name is passed over. Hidden entries are, unless an ignore file wants
them. -/
def isSkipped (views : List (Level × Text)) (name : Text) (isDirectory : Bool) : Bool :=
  match entryVerdict? isDirectory views with
  | some .ignored => true
  | some .wanted => false
  | none => name.startsWith '.'

end FishScript.Ignore
