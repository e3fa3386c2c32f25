/-
# The parser

The parser reads the terminals one by one and keeps a stack of the nodes that are still open.
Each open node says what it expects next. A terminal is offered to the innermost node; a node
that has no use for it is complete, becomes a phrase of the node around it, and the terminal is
offered to that one. The outermost node is the program, which takes everything. So every
terminal becomes exactly one leaf, nothing is read twice, and no source is refused.

What fits nowhere is kept in error nodes:

* a block is an error until its `end` is read, so a block without one stays an error;
* a closing word that closes nothing, with the words after it;
* connectors without a statement before them, with the statement after them;
* garbage, with the words that run into it.
-/
import FishScript.Grammar.Nesting
import FishScript.Grammar.Phrase

namespace FishScript

/-! ## What an open node expects -/

/-- The nodes that hold a list of statements. -/
inductive Holder
  /-- The whole document. -/
  | program
  /-- A block, up to its first clause. -/
  | block (block : Block)
  /-- A further condition of a conditional. -/
  | elseIf
  /-- The last branch of a conditional. -/
  | otherwise
  /-- A case of a choice. -/
  | caseClause
deriving DecidableEq, Repr

/-- What a closing word means to a node that holds statements. -/
inductive ClosingRole
  /-- It closes the block. -/
  | closes (block : Block)
  /-- It begins a clause of the block. -/
  | beginsClause
  /-- It is for a node further out. -/
  | leaves
  /-- It means nothing here. -/
  | strays
deriving DecidableEq, Repr

namespace Holder

/-- What a closing word means. -/
def role : Holder → Closing → ClosingRole
  | .block b, .blockEnd => .closes b
  | .block .ifBlock, .elseBranch => .beginsClause
  | .block .switchBlock, .nextCase => .beginsClause
  | .elseIf, .blockEnd => .leaves
  | .elseIf, .elseBranch => .leaves
  | .otherwise, .blockEnd => .leaves
  | .caseClause, .blockEnd => .leaves
  | .caseClause, .nextCase => .leaves
  | _, _ => .strays

end Holder

/-- How much of the arguments of a command that sets a variable has been seen. -/
inductive DefinitionScan
  /-- The command sets no variable, or its name has been seen. -/
  | idle
  /-- Only options so far. -/
  | searching
  /-- The next word is the name. -/
  | next
deriving DecidableEq, Repr

namespace DefinitionScan

/-- The scan of a command with the given name. -/
def ofCommand (name : Text) : DefinitionScan := if name == "set".toList then .searching else .idle

/-- The long options with which no variable is defined. -/
def readsLong (name : Text) : Bool :=
  ["query", "erase", "show", "names"].any (·.toList == name)

/-- The short options with which no variable is defined. -/
def readsShort (c : Char) : Bool := c == 'q' || c == 'e' || c == 'S' || c == 'n'

/-- The kind of the next argument and what is known after it. -/
def step : DefinitionScan → Text → NodeKind × DefinitionScan
  | .idle, w => (wordKind w, .idle)
  | .next, _ => (.variableDefinition, .idle)
  | .searching, '-' :: '-' :: [] => (.option, .next)
  | .searching, '-' :: '-' :: long =>
    (.option, if readsLong (long.takeWhile (· != '=')) then .idle else .searching)
  | .searching, '-' :: c :: short =>
    (.option, if (c :: short).any readsShort then .idle else .searching)
  | .searching, _ => (.variableDefinition, .idle)

end DefinitionScan

/-- What an open node expects next. -/
inductive Expect
  /-- Statements; `joinable` says that a statement is last, to which a connector may join the
  next one. -/
  | statements (holder : Holder) (joinable : Bool)
  /-- The words of a function header; `named` says that the name has been seen. -/
  | functionHeader (named : Bool)
  /-- The words of a loop header; `named` says that the variable has been seen, `listed` that the
  word `in` has. -/
  | loopHeader (named listed : Bool)
  /-- The words after `switch` or `case`. -/
  | headerWords (holder : Holder)
  /-- The first part of a condition. -/
  | condition (holder : Holder)
  /-- A connector and a further part of a condition. -/
  | conditionRest (holder : Holder)
  /-- The word `if` after `else`, or statements. -/
  | elseHead
  /-- Words up to the end of the node. -/
  | finalWords
  /-- The words after a closing word that closes nothing. -/
  | strayWords
  /-- The arguments of a command; `staged` says that it stands in a pipeline. -/
  | arguments (staged : Bool) (scan : DefinitionScan)
  /-- More conjunctions, or what they join. -/
  | conjunctions
  /-- More connectors, or the statement after them. -/
  | connectors
  /-- More garbage or words. -/
  | garbage
  /-- Line breaks, or what the connector before them joins. -/
  | joined
  /-- Line breaks, a further bar, or the next command of a pipeline. -/
  | stage
  /-- A further bar of a pipeline. -/
  | bar
  /-- Nothing. -/
  | nothing
deriving DecidableEq, Repr

/-! ## Open nodes -/

/-- A node that is still open. -/
structure Frame where
  /-- What it stands for if it is complete now. -/
  kind : NodeKind
  /-- Its role in the node that holds it. -/
  field : Option Field
  /-- Its phrases so far, the last first. -/
  phrases : List Phrase
  /-- What it expects next. -/
  expect : Expect
deriving Repr

/-- What a terminal does to the innermost node: the node takes it, or a new node inside it does. -/
structure Move where
  /-- The node after the terminal. -/
  frame : Frame
  /-- The new node. -/
  inner? : Option Frame
deriving Repr

namespace Frame

/-- The phrase of a complete node. -/
def phrase (f : Frame) : Phrase := .node f.kind f.field f.phrases.reverse

/-- Add a phrase. -/
def add (f : Frame) (p : Phrase) : Frame := { f with phrases := p :: f.phrases }

/-- A new node whose first leaf is a terminal. -/
def opened (kind : NodeKind) (field : Option Field) (leafKind : NodeKind)
    (leafField : Option Field) (t : Terminal) (expect : Expect) : Frame :=
  ⟨kind, field, [.leaf leafKind leafField t.span], expect⟩

/-- The node takes a terminal as a leaf. -/
def take (f : Frame) (kind : NodeKind) (field : Option Field) (t : Terminal) (expect : Expect) :
    Move :=
  ⟨{ f with phrases := .leaf kind field t.span :: f.phrases, expect }, none⟩

/-- A new node inside takes the terminal. -/
def enter (f : Frame) (expect : Expect) (inner : Frame) : Move :=
  ⟨{ f with expect }, some inner⟩

end Frame

namespace Block

/-- What is expected after the word that opens a block. -/
def header : Block → Expect
  | .function => .functionHeader false
  | .ifBlock => .condition (.block .ifBlock)
  | .forLoop => .loopHeader false false
  | .whileLoop => .condition (.block .whileLoop)
  | .switchBlock => .headerWords (.block .switchBlock)
  | .beginBlock => .statements (.block .beginBlock) false

end Block

namespace Frame

/-- The command that a word names. -/
def command (field : Option Field) (staged : Bool) (t : Terminal) (word : Text) : Frame :=
  .opened .command field .word (some .name) t (.arguments staged (.ofCommand word))

/-- The construct that a word begins where a command may begin. -/
def construct (field : Option Field) (t : Terminal) (word : Text) : Frame :=
  match Block.ofOpener? word with
  | some block => .opened .error field .keyword none t block.header
  | none =>
    if isReturn word then .opened .returnStatement field .keyword none t .finalWords
    else if isConjunction word then
      .opened .conditionalExecution field .keyword none t .conjunctions
    else command field false t word

/-- What a connector joins to the statement before it. -/
def joining (field : Option Field) (t : Terminal) : Frame :=
  .opened .conditionalExecution field .operator none t .joined

/-- A connector with nothing before it. -/
def dangling (t : Terminal) : Frame := .opened .error none .operator none t .connectors

/-- Garbage. -/
def garbled (t : Terminal) : Frame := .opened .error none .word none t .garbage

/-- The clause that a closing word begins. -/
def clause (c : Closing) (t : Terminal) : Frame :=
  match c with
  | .nextCase => .opened .caseClause none .keyword none t (.headerWords .caseClause)
  | _ => .opened .elseClause none .keyword none t .elseHead

/-- A closing word that closes nothing. -/
def stray (t : Terminal) : Frame := .opened .error none .keyword none t .strayWords

end Frame

namespace Symbol

/-- The text of a word with which a construct may begin. -/
def starter? : Symbol → Option Text
  | .word w => if (Closing.ofWord? w).isNone then some w else none
  | _ => none

/-- The symbol joins a statement to the one before it. -/
def isConnector : Symbol → Bool
  | .andAnd | .orOr => true
  | _ => false

end Symbol

/-! ## What a node does with a terminal -/

namespace Frame

/-- A terminal in a list of statements. -/
def inStatements (f : Frame) (holder : Holder) (joinable : Bool) (t : Terminal) : Option Move :=
  match t.symbol with
  | .separator | .newline => some (f.take .terminator none t (.statements holder false))
  | .comment => some (f.take .comment none t (.statements holder false))
  | .andAnd | .orOr =>
    some (f.enter (.statements holder true) (if joinable then joining none t else dangling t))
  | .pipe => some (f.enter (.statements holder true) (dangling t))
  | .garbage => some (f.enter (.statements holder true) (garbled t))
  | .word w =>
    match Closing.ofWord? w with
    | none => some (f.enter (.statements holder true) (construct none t w))
    | some c =>
      match holder.role c with
      | .closes block => some ({ f with kind := block.kind }.take .keyword none t .finalWords)
      | .beginsClause => some (f.enter (.statements holder false) (clause c t))
      | .leaves => none
      | .strays => some (f.enter (.statements holder false) (stray t))

/-- A word of a function header. -/
def inFunctionHeader (f : Frame) (named : Bool) (t : Terminal) (word : Text) : Move :=
  if !named && wordKind word == .word then
    f.take .word (some .name) t (.functionHeader true)
  else f.take (wordKind word) (some .option) t (.functionHeader named)

/-- A word of a loop header. -/
def inLoopHeader (f : Frame) (named listed : Bool) (t : Terminal) (word : Text) : Move :=
  if !named then f.take .word (some .name) t (.loopHeader true listed)
  else if !listed && word == "in".toList then f.take .keyword none t (.loopHeader true true)
  else f.take (wordKind word) (some .argument) t (.loopHeader true listed)

/-- The pipeline that a bar makes of a command. -/
def piped (f : Frame) (t : Terminal) : Frame :=
  ⟨.pipeline, f.field, [.leaf .operator none t.span, .node .command none f.phrases.reverse],
    .stage⟩

/-- What the node does with a terminal, or nothing if it is complete without it. -/
def accept (f : Frame) (t : Terminal) : Option Move :=
  match f.expect with
  | .statements holder joinable => f.inStatements holder joinable t
  | .functionHeader named =>
    match t.symbol with
    | .word w => some (f.inFunctionHeader named t w)
    | _ => f.inStatements (.block .function) false t
  | .loopHeader named listed =>
    match t.symbol with
    | .word w => some (f.inLoopHeader named listed t w)
    | _ => f.inStatements (.block .forLoop) false t
  | .headerWords holder =>
    match t.symbol with
    | .word w => some (f.take (wordKind w) (some .argument) t (.headerWords holder))
    | _ => f.inStatements holder false t
  | .condition holder =>
    match t.symbol.starter? with
    | some w => some (f.enter (.conditionRest holder) (construct (some .condition) t w))
    | none => f.inStatements holder false t
  | .conditionRest holder =>
    if t.symbol.isConnector then
      some (f.enter (.conditionRest holder) (joining (some .condition) t))
    else f.inStatements holder false t
  | .elseHead =>
    if t.symbol = .word "if".toList then
      some ({ f with kind := .elseIfClause }.take .keyword none t (.condition .elseIf))
    else f.inStatements .otherwise false t
  | .finalWords =>
    match t.symbol with
    | .word w => some (f.take (wordKind w) (some .argument) t .finalWords)
    | _ => none
  | .strayWords =>
    match t.symbol.starter? with
    | some w => some (f.take (wordKind w) (some .argument) t .strayWords)
    | none => none
  | .arguments staged scan =>
    match t.symbol with
    | .word w =>
      some (f.take (scan.step w).1 (some .argument) t (.arguments staged (scan.step w).2))
    | .pipe => if staged then none else some ⟨f.piped t, none⟩
    | _ => none
  | .conjunctions =>
    match t.symbol.starter? with
    | some w =>
      if isConjunction w then some (f.take .keyword none t .conjunctions)
      else some (f.enter .nothing (construct none t w))
    | none => none
  | .connectors =>
    if t.symbol.isConnector || t.symbol == .pipe then some (f.take .operator none t .connectors)
    else t.symbol.starter?.map fun w => f.enter .nothing (construct none t w)
  | .garbage =>
    match t.symbol with
    | .garbage | .word _ => some (f.take .word none t .garbage)
    | _ => none
  | .joined =>
    match t.symbol with
    | .newline => some (f.take .terminator none t .joined)
    | .comment => some (f.take .comment none t .joined)
    | symbol => symbol.starter?.map fun w => f.enter .nothing (construct none t w)
  | .stage =>
    match t.symbol with
    | .newline => some (f.take .terminator none t .stage)
    | .pipe => some (f.take .operator none t .stage)
    | symbol => symbol.starter?.map fun w => f.enter .bar (command none true t w)
  | .bar =>
    match t.symbol with
    | .pipe => some (f.take .operator none t .stage)
    | _ => none
  | .nothing => none

end Frame

/-! ## The stack -/

/-- The open nodes. -/
structure Stack where
  /-- The innermost. -/
  top : Frame
  /-- The nodes around it, the nearest first. -/
  below : List Frame
deriving Repr

namespace Stack

/-- Only the program is open. -/
def initial : Stack := ⟨⟨.program, none, [], .statements .program false⟩, []⟩

/-- The stack after a move of the innermost node. -/
def ofMove (m : Move) (below : List Frame) : Stack :=
  match m.inner? with
  | none => ⟨m.frame, below⟩
  | some inner => ⟨inner, m.frame :: below⟩

/-- Offer a terminal to the nodes, from the innermost on. -/
def offer (t : Terminal) (top : Frame) : List Frame → Stack
  | [] => ofMove ((top.accept t).getD ⟨top, none⟩) []
  | next :: below =>
    match top.accept t with
    | some m => ofMove m (next :: below)
    | none => offer t (next.add top.phrase) below

/-- The stack after a terminal. -/
def step (s : Stack) (t : Terminal) : Stack := offer t s.top s.below

/-- Close all nodes, from the innermost on. -/
def close (top : Frame) : List Frame → Phrase
  | [] => top.phrase
  | next :: below => close (next.add top.phrase) below

/-- The phrase that the stack becomes at the end of the source. -/
def phrase (s : Stack) : Phrase := close s.top s.below

end Stack

/-- The phrase of a list of terminals. -/
def parseTerminals (ts : List Terminal) : Phrase := (ts.foldl Stack.step .initial).phrase

/-- The syntax tree of a source. -/
def parse (source : Text) : Except Refusal Tree :=
  Tree.build source (parseTerminals (limitNesting (terminals source))).calls

end FishScript
