/-
# Running test cases

There are two sorts of test files. The cases of one expect the dump of the tree of their input,
in which white space between parentheses does not matter. The cases of the other expect the
diagnostics of their input: a line for each, with the name of its code and the first line of the
text it is about.
-/
import FishScript.Grammar.Parser
import FishScript.Rules.Pass
import FishScript.TestFile.Block
import FishScript.TestFile.Summary
import FishScript.Tree.Dump

namespace FishScript.TestFile

/-! ## White space in dumps -/

/-- The place in a dump. -/
inductive DumpPlace
  /-- Outside quotes; `spaced` says that white space has been passed over. -/
  | outside (spaced : Bool)
  /-- Between quotes; `escaped` says that a backslash is last. -/
  | quoted (escaped : Bool)
deriving DecidableEq, Repr

/-- The rest of a dump with white space collapsed; `first` says that nothing stands before it. -/
def collapseFrom (place : DumpPlace) (first : Bool) : Text → Text
  | [] => []
  | c :: t =>
    match place with
    | .quoted true => c :: collapseFrom (.quoted false) false t
    | .quoted false =>
      c :: collapseFrom (if c = '"' then .outside false else .quoted (c == '\\')) false t
    | .outside spaced =>
      if Text.isBlank c then collapseFrom (.outside true) first t
      else
        let rest := c :: collapseFrom (if c = '"' then .quoted false else .outside false) false t
        if spaced && !first && c != ')' then ' ' :: rest else rest

/-- A dump in which white space outside quotes is one space, or nothing at the two ends and before
closing parentheses. -/
def collapse (t : Text) : Text := collapseFrom (.outside false) true t.trim

/-! ## Cases -/

/-- The outcome of a case that expects a dump. -/
def runDump (b : Block) : Outcome :=
  match parse b.input with
  | .error r => .error r.message
  | .ok tree =>
    match tree.root? with
    | some root => .compare (collapse b.expected) (collapse (root.dump b.input))
    | none => .error "parser produced no root".toList

/-- The line of a diagnostic. -/
def listingLine (source : Text) (d : Diagnostic) : Text :=
  d.code.name.toList ++ ' ' :: ((d.span.text? source).getD []).firstLine.trim

/-- The lines of diagnostics. -/
def listing (source : Text) (ds : List Diagnostic) : Text :=
  Text.joined ['\n'] (ds.map (listingLine source))

/-- An expected listing without empty lines and without white space around its lines. -/
def tidy (expected : Text) : Text :=
  Text.joined ['\n'] ((expected.lines.map Text.trim).filter fun line => !line.isEmpty)

/-- The document of a case: the header `autoload` names the function it is loaded for. -/
def documentOf (b : Block) : Document :=
  match b.header? "autoload".toList with
  | some name => Document.anonymous.withAutoloadName name
  | none => .anonymous

/-- The outcome of a case that expects diagnostics. -/
def runListing (b : Block) : Outcome :=
  match (parse b.input).bind fun tree => tree.diagnose (documentOf b) with
  | .ok ds => .compare (tidy b.expected) (listing b.input ds)
  | .error r => .error r.message

/-- The outcomes of cases that are run in a given way. -/
def runAll (run : Block → Outcome) (bs : List Block) : Summary :=
  bs.foldl (fun s b => s.record b.name b.line (run b)) .empty

end FishScript.TestFile
