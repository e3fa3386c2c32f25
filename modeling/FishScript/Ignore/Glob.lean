/-
# Globs

The patterns of ignore files. A glob is matched against the bytes of a path, and its wildcards
stand for single bytes: a question mark for any but a slash, brackets for one of a set, an
asterisk for any number of bytes that are no slashes. Two asterisks between slashes or ends stand
for any number of directories, braces for one of several globs.
-/
import FishScript.Files.Bytes

namespace FishScript.Ignore

/-- A part of a glob. -/
inductive Part
  /-- A character that stands for itself. -/
  | literal (c : Char)
  /-- One byte that is no slash. -/
  | anyByte
  /-- Any number of bytes that are no slashes. -/
  | anyRun
  /-- A byte of the given ranges, or one that is in none of them. -/
  | oneOf (negated : Bool) (ranges : List (Char × Char))
  /-- At the start, any directories with the slash after them. -/
  | leading
  /-- Any directories with the slashes on both sides. -/
  | between
  /-- At the end, anything after a slash. -/
  | trailing
  /-- One of several globs. -/
  | choice (branches : List (List Part))
deriving Repr

/-! ## Matching -/

/-- A slash. -/
def slash : UInt8 := 47

/-- What is left of bytes after a literal one. -/
def afterByte (x : UInt8) : Bytes → List Bytes
  | [] => []
  | y :: b => if x = y then [b] else []

/-- What can be left of bytes after a run without slashes. -/
def afterRun : Bytes → List Bytes
  | [] => [[]]
  | x :: b => (x :: b) :: (if x = slash then [] else afterRun b)

/-- What can be left of bytes after a slash anywhere in them. -/
def afterSlash : Bytes → List Bytes
  | [] => []
  | x :: b => if x = slash then b :: afterSlash b else afterSlash b

/-- What can be left of bytes after any bytes. -/
def afterAny : Bytes → List Bytes
  | [] => [[]]
  | x :: b => (x :: b) :: afterAny b

/-- The ranges of bytes that a range of characters stands for. Of characters with several bytes
only the last byte of the first and the first byte of the last one are ends of a range, the
others stand for themselves. -/
def byteRanges (range : Char × Char) : List (UInt8 × UInt8) :=
  let first := Text.utf8 [range.1]
  let last := Text.utf8 [range.2]
  if range.1 = range.2 then first.map fun x => (x, x)
  else (first.dropLast.map fun x => (x, x))
    ++ (first.getLast?.toList.zip last.head?.toList)
    ++ (last.tail.map fun x => (x, x))

/-- A byte is in one of several ranges of characters. -/
def inRanges (ranges : List (Char × Char)) (x : UInt8) : Bool :=
  (ranges.flatMap byteRanges).any fun r => r.1 ≤ x && x ≤ r.2

mutual

/-- What can be left of bytes after a part of a glob. -/
def Part.rests (b : Bytes) : Part → List Bytes
  | .literal c => (Text.utf8 [c]).foldl (fun bs x => bs.flatMap (afterByte x)) [b]
  | .anyByte =>
    match b with
    | x :: rest => if x = slash then [] else [rest]
    | [] => []
  | .anyRun => afterRun b
  | .oneOf negated ranges =>
    match b with
    | x :: rest => if inRanges ranges x != negated then [rest] else []
    | [] => []
  | .leading => b :: afterSlash b
  | .between => (afterByte slash b).flatMap fun rest => rest :: afterSlash rest
  | .trailing => (afterByte slash b).flatMap afterAny
  | .choice branches => if branches.isEmpty then [b] else restsOfAny b branches

/-- What can be left after a glob of bytes that are one of several. Each possibility is listed
once, so that there are never more of them than places in a path. -/
def restsOf (bs : List Bytes) : List Part → List Bytes
  | [] => bs
  | p :: glob => restsOf (bs.flatMap fun b => p.rests b).eraseDups glob

/-- What can be left of bytes after one of several globs. -/
def restsOfAny (b : Bytes) : List (List Part) → List Bytes
  | [] => []
  | glob :: globs => restsOf [b] glob ++ restsOfAny b globs

end

/-- A glob matches a whole path. One that says nothing but "any directories" matches every
path. -/
def globMatches (glob : List Part) (path : Text) : Bool :=
  match glob with
  | [.leading] => true
  | _ => (restsOf [path.utf8] glob).any List.isEmpty

/-! ## Brackets -/

/-- How the text after an opening bracket reads. -/
inductive BracketReading
  /-- The last character of a range comes before its first one. -/
  | disordered (first last : Char)
  /-- There is no closing bracket. -/
  | unclosed
  /-- A set, and the number of characters up to the closing bracket. -/
  | closed (set : Part) (used : Nat)
deriving Repr

/-- The reading of a set from some place on. The ranges before it are given last first; `first`
says that there are none and that none is excluded, `ranging` that a dash is last, and `used` is
the number of characters before the place. -/
def readSet (negated : Bool) (ranges : List (Char × Char)) (first ranging : Bool) (used : Nat) :
    Text → BracketReading
  | [] => .unclosed
  | c :: rest =>
    if c = ']' && !first then
      .closed (.oneOf negated ((if ranging then ('-', '-') :: ranges else ranges).reverse))
        (used + 1)
    else if c = '-' && !first && !ranging then readSet negated ranges false true (used + 1) rest
    else match ranging, ranges with
      | true, (low, _) :: before =>
        if c < low then .disordered low c
        else readSet negated ((low, c) :: before) false false (used + 1) rest
      | _, _ => readSet negated ((c, c) :: ranges) false false (used + 1) rest

/-- The reading of the text after an opening bracket. -/
def readBracket (t : Text) : BracketReading :=
  match t with
  | '!' :: rest => readSet true [] true false 1 rest
  | '^' :: rest => readSet true [] true false 1 rest
  | rest => readSet false [] true false 0 rest

/-! ## Faults -/

/-- Why a text writes no glob. -/
inductive GlobFault
  /-- The last character of a range comes before its first one. -/
  | disordered (first last : Char)
  /-- A brace closes that was not opened. -/
  | unopened
  /-- A brace opens and is not closed. -/
  | unclosed
  /-- A backslash is the last character. -/
  | dangling
deriving DecidableEq, Repr

namespace GlobFault

/-- The wording of a fault. -/
def message : GlobFault → Text
  | .disordered first last => "invalid range; '".toList ++ first :: "' > '".toList ++ [last, '\'']
  | .unopened =>
    "unopened alternate group; missing '\x7b' (maybe escape '\x7d' with '[\x7d]'?)".toList
  | .unclosed =>
    "unclosed alternate group; missing '\x7d' (maybe escape '\x7b' with '[\x7b]'?)".toList
  | .dangling => "dangling '\\'".toList

end GlobFault

/-! ## Reading -/

/-- An open brace. -/
structure OpenBrace where
  /-- The branches before the one that is being read, last first. -/
  branches : List (List Part)
  /-- What stands before the brace, last part first. -/
  before : List Part
deriving Repr

/-- A glob that is being read. -/
structure GlobReading where
  /-- The parts of the branch that is being read, last first. -/
  branch : List Part
  /-- The open braces, innermost first. -/
  braces : List OpenBrace
  /-- The last character. -/
  previous : Option Char
  /-- A bracket had no partner, so that brackets are characters like others. -/
  plainBrackets : Bool
deriving Repr

/-- A branch that stands for the empty text only. -/
def isVoid (branch : List Part) : Bool :=
  branch.all fun p => match p with
    | .choice [] => true
    | _ => false

namespace GlobReading

/-- The state before the first character. -/
def start : GlobReading := ⟨[], [], none, false⟩

/-- The state after a part. -/
def push (r : GlobReading) (p : Part) : GlobReading := { r with branch := p :: r.branch }

/-- The state after two asterisks that have no meaning of their own. -/
def pushRuns (r : GlobReading) : GlobReading := (r.push .anyRun).push .anyRun

/-- The state after directories in place of the slash before them. -/
def replaceSlash (r : GlobReading) (p : Part) : GlobReading :=
  match r.branch with
  | .leading :: _ => r
  | .trailing :: _ => r
  | _ :: before => { r with branch := p :: before }
  | [] => r.push p

/-- Two asterisks may stand for directories after the last character. -/
def opensDirectories (r : GlobReading) : Bool :=
  r.previous == some '/'
    || (!r.braces.isEmpty && (r.previous == some ',' || r.previous == some '\x7b'))

/-- The state after two asterisks, and the number of characters used up after the first of
them. -/
def doubleStar (r : GlobReading) (rest : Text) : GlobReading × Nat :=
  if r.branch.isEmpty then
    match rest with
    | [] => (r.push .leading, 1)
    | c :: _ => if c = '/' then (r.push .leading, 2) else (r.pushRuns, 1)
  else if !r.opensDirectories then (r.pushRuns, 1)
  else
    match rest with
    | [] => (r.replaceSlash .trailing, 1)
    | c :: _ =>
      if c = '/' then (r.replaceSlash .between, 2)
      else if !r.braces.isEmpty && (c = ',' || c = '\x7d') then (r.replaceSlash .trailing, 1)
      else (r.pushRuns, 1)

/-- The state after an opening bracket, and the number of characters used up after it. -/
def bracket (r : GlobReading) (rest : Text) : Except GlobFault (GlobReading × Nat) :=
  if r.plainBrackets then .ok (r.push (.literal '['), 0)
  else match readBracket rest with
    | .disordered first last => .error (.disordered first last)
    | .unclosed => .ok ({ r.push (.literal '[') with plainBrackets := true }, 0)
    | .closed set used => .ok (r.push set, used)

/-- The state after a closing brace. -/
def closeBrace (r : GlobReading) : Except GlobFault GlobReading :=
  match r.braces with
  | [] => .error .unopened
  | brace :: outer =>
    let branches := ((r.branch :: brace.branches).map List.reverse).reverse
    .ok { r with
      branch := .choice (branches.filter (!isVoid ·)) :: brace.before, braces := outer }

/-- The state after a comma. -/
def comma (r : GlobReading) : GlobReading :=
  match r.braces with
  | [] => r.push (.literal ',')
  | brace :: outer =>
    { r with branch := [], braces := ⟨r.branch :: brace.branches, brace.before⟩ :: outer }

/-- The state after a backslash, which makes the next character stand for itself. -/
def escape (r : GlobReading) : Text → Except GlobFault (GlobReading × Nat)
  | [] => .error .dangling
  | c :: _ => .ok (r.push (.literal c), 1)

/-- The state after a character, and the number of characters used up after it. -/
def step (r : GlobReading) (c : Char) (rest : Text) : Except GlobFault (GlobReading × Nat) :=
  match c with
  | '?' => .ok (r.push .anyByte, 0)
  | '*' =>
    match rest with
    | '*' :: more => .ok (r.doubleStar more)
    | _ => .ok (r.push .anyRun, 0)
  | '[' => r.bracket rest
  | '\x7b' => .ok ({ r with branch := [], braces := ⟨[], r.branch⟩ :: r.braces }, 0)
  | '\x7d' => r.closeBrace.map (·, 0)
  | ',' => .ok (r.comma, 0)
  | '\\' => r.escape rest
  | c => .ok (r.push (.literal c), 0)

/-- The glob that a text continues, if its next `used` characters are used up already. -/
def continueWith (r : GlobReading) (used : Nat) : Text → Except GlobFault (List Part)
  | [] => if r.braces.isEmpty then .ok r.branch.reverse else .error .unclosed
  | c :: rest =>
    match used with
    | n + 1 => continueWith { r with previous := some c } n rest
    | 0 => (r.step c rest).bind fun (r, used) =>
      continueWith { r with previous := some c } used rest

end GlobReading

/-- The glob that a text writes. -/
def globOf (t : Text) : Except GlobFault (List Part) := GlobReading.start.continueWith 0 t

end FishScript.Ignore
