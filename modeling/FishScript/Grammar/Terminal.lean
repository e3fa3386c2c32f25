/-
# The terminal symbols of the grammar

The grammar tells words apart by their text and forgets what it does not need of the other
tokens. A word is reserved only where a command may begin: some words open a block, some close
one or begin its next part, some join a statement to the one before it.
-/
import FishScript.Token.Lexer
import FishScript.Tree.Kind

namespace FishScript

/-! ## Reserved words -/

/-- The blocks that are closed by `end`. -/
inductive Block
  /-- A function definition. -/
  | function
  /-- A conditional. -/
  | ifBlock
  /-- A loop over items. -/
  | forLoop
  /-- A loop under a condition. -/
  | whileLoop
  /-- A choice by value. -/
  | switchBlock
  /-- A block of its own. -/
  | beginBlock
deriving DecidableEq, Repr

namespace Block

/-- Every block. -/
def all : List Block :=
  [.function, .ifBlock, .forLoop, .whileLoop, .switchBlock, .beginBlock]

/-- The word that opens a block. -/
def opener : Block → String
  | .function => "function"
  | .ifBlock => "if"
  | .forLoop => "for"
  | .whileLoop => "while"
  | .switchBlock => "switch"
  | .beginBlock => "begin"

/-- The kind of node that a closed block becomes. -/
def kind : Block → NodeKind
  | .function => .functionDefinition
  | .ifBlock => .ifStatement
  | .forLoop => .forStatement
  | .whileLoop => .whileStatement
  | .switchBlock => .switchStatement
  | .beginBlock => .beginStatement

/-- The block that a word opens. -/
def ofOpener? (word : Text) : Option Block := all.find? (·.opener.toList == word)

end Block

/-- The words that end a list of statements. -/
inductive Closing
  /-- The end of a block. -/
  | blockEnd
  /-- The next part of a conditional. -/
  | elseBranch
  /-- The next case of a choice. -/
  | nextCase
deriving DecidableEq, Repr

namespace Closing

/-- Every closing word. -/
def all : List Closing := [.blockEnd, .elseBranch, .nextCase]

/-- The word itself. -/
def word : Closing → String
  | .blockEnd => "end"
  | .elseBranch => "else"
  | .nextCase => "case"

/-- The closing word that a text is. -/
def ofWord? (word : Text) : Option Closing := all.find? (·.word.toList == word)

end Closing

/-- The word joins what follows it to the statement before. -/
def isConjunction (word : Text) : Bool := word == "and".toList || word == "or".toList

/-- The word ends a function. -/
def isReturn (word : Text) : Bool := word == "return".toList

/-- A word is an option when it starts with a dash and is longer than the dash. -/
def wordKind : Text → NodeKind
  | '-' :: _ :: _ => .option
  | _ => .word

/-! ## Terminals -/

/-- The symbols that the grammar tells apart. -/
inductive Symbol
  /-- A word with its text. -/
  | word (text : Text)
  /-- Two ampersands. -/
  | andAnd
  /-- Two bars. -/
  | orOr
  /-- One bar. -/
  | pipe
  /-- A semicolon or one ampersand. -/
  | separator
  /-- The end of a line. -/
  | newline
  /-- A comment. -/
  | comment
  /-- Text without a meaning, or a block that is nested too deep. -/
  | garbage
deriving DecidableEq, Repr

/-- A symbol at its place. -/
structure Terminal where
  /-- What stands there. -/
  symbol : Symbol
  /-- Where it stands. -/
  span : Span
deriving DecidableEq, Repr

namespace Token

/-- What the grammar sees in a token. -/
def symbol (t : Token) : Symbol :=
  match t.kind with
  | .andAnd => .andAnd
  | .orOr => .orOr
  | .pipe => .pipe
  | .ampersand | .semicolon => .separator
  | .newline => .newline
  | .comment => .comment
  | .word => .word t.text
  | .unexpected => .garbage

/-- A token as a terminal. -/
def terminal (t : Token) : Terminal := ⟨t.symbol, t.span⟩

end Token

/-- The terminals of a source, in order. -/
def terminals (source : Text) : List Terminal := (tokens source).map Token.terminal

end FishScript
