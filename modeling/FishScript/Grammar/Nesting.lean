/-
# The nesting limit

Blocks that would nest deeper than the limit are not handed to the grammar. Each of them, from
its opening word through the `end` that closes it, is folded into one terminal without meaning.

Where blocks open and close is found by a scan that follows the terminals one by one and knows
only whether a command may begin at the next one. It does not know the grammar.
-/
import FishScript.Grammar.Terminal

namespace FishScript

/-- The greatest depth of blocks that the grammar sees. -/
def maxNesting : Nat := 32

/-- What a terminal does to the depth of blocks. -/
inductive Nesting
  /-- It opens a block. -/
  | opens
  /-- It closes one. -/
  | closes
  /-- Neither. -/
  | same
deriving DecidableEq, Repr

/-- What the scan knows between two terminals. -/
structure NestingScan where
  /-- A command may begin here. -/
  commandPosition : Bool
  /-- The last terminal was the word `else` where a command may begin. -/
  afterElse : Bool
deriving DecidableEq, Repr

namespace NestingScan

/-- What is known before the first terminal. -/
def initial : NestingScan := ⟨true, false⟩

/-- The words after which a command may begin. -/
def leadsCommand (word : Text) : Bool :=
  ["and", "or", "if", "while", "begin", "else"].any (·.toList == word)

/-- The effect of a word. -/
def wordEffect (s : NestingScan) (word : Text) : Nesting :=
  if !s.commandPosition then .same
  else if word == "end".toList then .closes
  else if (Block.ofOpener? word).isSome && !(word == "if".toList && s.afterElse) then .opens
  else .same

/-- The effect of a terminal. -/
def effect (s : NestingScan) : Symbol → Nesting
  | .word w => s.wordEffect w
  | _ => .same

/-- What is known after a terminal. -/
def next (s : NestingScan) : Symbol → NestingScan
  | .word w => ⟨s.commandPosition && leadsCommand w, s.commandPosition && w == "else".toList⟩
  | .garbage => ⟨false, false⟩
  | _ => ⟨true, false⟩

end NestingScan

/-- A block that is being folded. -/
structure Fold where
  /-- The blocks open inside it, itself included. -/
  depth : Nat
  /-- Where it starts. -/
  start : Nat
  /-- Where the last of its terminals so far ends. -/
  stop : Nat
deriving DecidableEq, Repr

namespace Fold

/-- The terminal that stands for the block. -/
def terminal (f : Fold) : Terminal := ⟨.garbage, ⟨f.start, f.stop⟩⟩

/-- The number of open blocks after a terminal with the given effect. -/
def depthAfter (f : Fold) : Nesting → Nat
  | .opens => f.depth + 1
  | .closes => f.depth - 1
  | .same => f.depth

end Fold

/-- The limited list of the remaining terminals, where `depth` blocks are open outside the block
that is being folded, if one is. -/
def limitFrom (scan : NestingScan) (depth : Nat) (fold? : Option Fold) :
    List Terminal → List Terminal
  | [] =>
    match fold? with
    | none => []
    | some fold => [fold.terminal]
  | t :: rest =>
    let scan' := scan.next t.symbol
    match fold?, scan.effect t.symbol with
    | some fold, effect =>
      let fold' : Fold := ⟨fold.depthAfter effect, fold.start, t.span.stop⟩
      if fold'.depth = 0 then fold'.terminal :: limitFrom scan' depth none rest
      else limitFrom scan' depth (some fold') rest
    | none, .opens =>
      if depth = maxNesting then limitFrom scan' depth (some ⟨1, t.span.start, t.span.stop⟩) rest
      else t :: limitFrom scan' (depth + 1) none rest
    | none, .closes => t :: limitFrom scan' (depth - 1) none rest
    | none, .same => t :: limitFrom scan' depth none rest

/-- Fold the blocks that nest deeper than the limit. -/
def limitNesting (ts : List Terminal) : List Terminal := limitFrom .initial 0 none ts

end FishScript
