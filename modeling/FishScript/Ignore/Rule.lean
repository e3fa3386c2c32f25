/-
# Ignore files

An ignore file has a rule on each line. A rule says of the entries that its glob matches that they
are ignored or, after an exclamation mark, that they are not; the last rule that says something of
an entry counts. A line that makes no sense is remembered by its number and has no rule.
-/
import FishScript.Files.Tree
import FishScript.Ignore.Glob

namespace FishScript.Ignore

/-- What ignore files say of an entry. -/
inductive Verdict
  /-- It is passed over. -/
  | ignored
  /-- It is looked at, even if it is hidden. -/
  | wanted
deriving DecidableEq, Repr

/-- A line of an ignore file. -/
structure Rule where
  /-- What it says of the entries that match. -/
  verdict : Verdict
  /-- It is about directories only. -/
  directoriesOnly : Bool
  /-- The glob that the path of an entry must match. -/
  glob : List Part
deriving Repr

/-! ## Reading -/

/-- The line without white space at its end, unless a backslash protects it. -/
def trimLine (line : Text) : Text :=
  if ['\\', ' '].isSuffixOf line then line else line.trimEnd

/-- The pattern of a line without the mark before it, and what the mark says. -/
def unmarked : Text → Verdict × Text
  | '\\' :: '!' :: t => (.ignored, '!' :: t)
  | '\\' :: '#' :: t => (.ignored, '#' :: t)
  | '!' :: t => (.wanted, t)
  | t => (.ignored, t)

/-- The pattern without the slash at its end, and whether there was one. A backslash before it
goes with it. -/
def withoutLastSlash (t : Text) : Text × Bool :=
  match t.reverse with
  | '/' :: '\\' :: r => (r.reverse, true)
  | '/' :: r => (r.reverse, true)
  | _ => (t, false)

/-- Any directories before a pattern that names no directory itself. -/
def anywhere (t : Text) : Text :=
  if t.contains '/' || t == ['*', '*'] then t else '*' :: '*' :: '/' :: t

/-- A pattern that ends in any directories means what is in them. -/
def insideOnly (t : Text) : Text :=
  if ['/', '*', '*'].isSuffixOf t then t ++ ['/', '*'] else t

/-- Why a line has no rule although it is neither empty nor a comment. -/
inductive LineFault
  /-- What it writes is no glob. -/
  | glob (line : Text) (cause : GlobFault)
  /-- It cannot be read. -/
  | unreadable (cause : ReadFault)
deriving DecidableEq, Repr

namespace LineFault

/-- The wording of a fault. -/
def message : LineFault → Text
  | .glob line cause => "error parsing glob '".toList ++ line ++ "': ".toList ++ cause.message
  | .unreadable cause => cause.message

/-- The line cannot be read. -/
def isUnreadable : LineFault → Bool
  | .glob _ _ => false
  | .unreadable _ => true

end LineFault

/-- The rule on a line. Comments and empty lines have none. -/
def ruleOfLine (line : Text) : Except LineFault (Option Rule) :=
  match trimLine line with
  | [] => .ok none
  | '#' :: _ => .ok none
  | t =>
    let (verdict, pattern) := unmarked t
    let anchored := pattern.startsWith '/'
    let (body, directoriesOnly) := withoutLastSlash (if anchored then pattern.drop 1 else pattern)
    match globOf (insideOnly (if anchored then body else anywhere body)) with
    | .ok glob => .ok (some ⟨verdict, directoriesOnly, glob⟩)
    | .error cause => .error (.glob t cause)

/-! ## Files -/

/-- What an ignore file says. -/
structure RuleFile where
  /-- Its rules. -/
  rules : List Rule
  /-- What is wrong with other lines, with their numbers. -/
  faults : List (Nat × LineFault)
deriving Repr

namespace RuleFile

/-- A file without lines. -/
def empty : RuleFile := ⟨[], []⟩

/-- The file with another line before the others. -/
def addLine (number : Nat) (line : Except LineFault (Option Rule)) (f : RuleFile) : RuleFile :=
  match line with
  | .ok (some rule) => { f with rules := rule :: f.rules }
  | .ok none => f
  | .error cause => { f with faults := (number, cause) :: f.faults }

/-- What lines say, when the first of them has the given number. Byte order marks at the start of
a file are passed over. A line that is no text ends the file. -/
def ofLines (number : Nat) : List Bytes → RuleFile
  | [] => empty
  | b :: rest =>
    match b.text? with
    | none => empty.addLine number (.error (.unreadable .notText))
    | some t =>
      let line : Text := if number = 1 then t.dropWhile (· == '\uFEFF') else t
      (ofLines (number + 1) rest).addLine number (ruleOfLine line.firstLine)

/-- What the bytes of a file say. -/
def ofBytes (b : Bytes) : RuleFile := ofLines 1 b.lines

/-- What the file at a path says. Where there is no file nothing is said. -/
def ofPath (look : Lookup) (path : Text) : RuleFile :=
  match look path with
  | .ok (.file bytes) => ofBytes bytes
  | _ => empty

/-- The faults that a reader is told. A file that just cannot be read to its end is taken as it
is. -/
def reported (f : RuleFile) : List (Nat × LineFault) :=
  if f.faults.all (·.2.isUnreadable) then [] else f.faults

end RuleFile

/-! ## Use -/

/-- A rule says something of the entry with the given path. -/
def Rule.covers (r : Rule) (path : Text) (isDirectory : Bool) : Bool :=
  (!r.directoriesOnly || isDirectory) && globMatches r.glob path

/-- What rules say of an entry. -/
def verdict? (rules : List Rule) (path : Text) (isDirectory : Bool) : Option Verdict :=
  (rules.findRev? (·.covers path isDirectory)).map Rule.verdict

end FishScript.Ignore
