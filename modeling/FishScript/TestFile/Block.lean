/-
# Test files

A test file is a sequence of blocks. A block has a name, headers, an input and an expected text:

    # test: name
    # key: value
    ---
    input
    ---
    expected
    ===

Lines between the blocks, and between the headers and the first dashes, say nothing. A block that
the end of the file cuts short counts with what there is of it. The lines are read one by one,
each in the light of the part of the file it stands in.
-/
import FishScript.Text.Basic

namespace FishScript.TestFile

/-- A block of a test file. -/
structure Block where
  /-- What the block is called. -/
  name : Text
  /-- The number of its first line, counted from one. -/
  line : Nat
  /-- Its headers, each a key with its value. -/
  headers : List (Text × Text)
  /-- The text to be examined. -/
  input : Text
  /-- What is to come of it, without white space around it. -/
  expected : Text
deriving DecidableEq, Repr

namespace Block

/-- The value of the first header with a key. -/
def header? (b : Block) (key : Text) : Option Text :=
  (b.headers.find? (·.1 == key)).map Prod.snd

end Block

/-- A block that is being read, its lists last first. -/
structure OpenBlock where
  /-- Its name. -/
  name : Text
  /-- The number of its first line. -/
  line : Nat
  /-- Its headers. -/
  headers : List (Text × Text)
  /-- The lines of its input. -/
  input : List Text
  /-- The lines of its expected text. -/
  expected : List Text
deriving DecidableEq, Repr

/-- The part of the file that a line stands in. -/
inductive Part
  /-- Between blocks. -/
  | outside
  /-- After the name or a header. -/
  | headers (b : OpenBlock)
  /-- Before the dashes. -/
  | before (b : OpenBlock)
  /-- In the input. -/
  | input (b : OpenBlock)
  /-- In the expected text. -/
  | expected (b : OpenBlock)
deriving DecidableEq, Repr

namespace OpenBlock

/-- The block as read so far. -/
def close (b : OpenBlock) : Block :=
  ⟨b.name, b.line, b.headers.reverse, Text.joined ['\n'] b.input.reverse,
    (Text.joined ['\n'] b.expected.reverse).trim⟩

/-- The block with what a line of the form `# key: value` says; without a colon it says
nothing. -/
def withHeader (b : OpenBlock) (line : Text) : OpenBlock :=
  match Text.cut? ':' line with
  | some (key, value) => { b with headers := (key.trim, value.trim) :: b.headers }
  | none => b

end OpenBlock

/-- What leads the name of a block. -/
def nameLead : Text := "# test:".toList

/-- The line between headers, input and expected text. -/
def dashes : Text := "---".toList

/-- The line after a block. -/
def equalSigns : Text := "===".toList

namespace Part

/-- The part after a line without news before the dashes. -/
def seek (b : OpenBlock) (line : Text) : Part := if line.trim == dashes then .input b else .before b

/-- The part after the line with the given number, and the block that ends there. -/
def step (number : Nat) (line : Text) : Part → Part × Option Block
  | .outside =>
    match Text.after? nameLead line.trim with
    | some name => (.headers ⟨name.trim, number, [], [], []⟩, none)
    | none => (.outside, none)
  | .headers b =>
    match line.trim with
    | '#' :: header => (.headers (b.withHeader header), none)
    | _ => (seek b line, none)
  | .before b => (seek b line, none)
  | .input b =>
    if line.trim == dashes then (.expected b, none)
    else (.input { b with input := line :: b.input }, none)
  | .expected b =>
    if line.trim == equalSigns then (.outside, some b.close)
    else (.expected { b with expected := line :: b.expected }, none)

/-- The block that the end of the file ends. -/
def last : Part → Option Block
  | .outside => none
  | .headers b | .before b | .input b | .expected b => some b.close

end Part

/-- The blocks that end on the lines from some number on, or after them. -/
def blocksFrom (part : Part) (number : Nat) : List Text → List Block
  | [] => part.last.toList
  | line :: rest =>
    let (part', block?) := part.step number line
    block?.toList ++ blocksFrom part' (number + 1) rest

/-- The blocks of a test file. -/
def blocks (content : Text) : List Block := blocksFrom .outside 1 content.lines

end FishScript.TestFile
