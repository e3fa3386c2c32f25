/-
# Programs

Well-formed programs as data: a word carries the proof that it is read as one word, the name of a
command that it is not reserved. A program is printed as a list of lexemes, with one space between
two of them and none at a line break.

Beside the print stands what a syntax tree of it should show: the outline of a program, which has
a node for each of its parts and knows nothing of tokens, positions or the parser.
-/
import Mathlib
import FishScript.Token.Lexer
import FishScript.Grammar.Parser

namespace FishScript

namespace Program

/-! ## Words -/

/-- A text that is one word. -/
structure Word where
  /-- Its characters. -/
  text : Text
  /-- By itself it is read as one word. -/
  lexes : tokens text = [⟨.word, text, 0⟩]
  /-- It holds no carriage return. -/
  noReturn : '\r' ∉ text

/-- The words `and` and `or`, which make a construct depend on the one before it. -/
inductive Conjunction
  /-- It runs if the one before succeeded. -/
  | and
  /-- It runs if the one before failed. -/
  | or
deriving DecidableEq, Repr

/-- The words with a meaning of their own where a command may begin, and `in`, which has one in
the header of a loop. -/
inductive Keyword
  /-- A word that opens a block. -/
  | opener (block : Block)
  /-- A word that closes one or begins its next part. -/
  | closing (closing : Closing)
  /-- A conjunction. -/
  | conjunction (conjunction : Conjunction)
  /-- The word that ends a function. -/
  | returning
  /-- The word before the items of a loop. -/
  | among
deriving DecidableEq, Repr

namespace Keyword

/-- The word itself. -/
def text : Keyword → Text
  | .opener block => block.opener.toList
  | .closing c => c.word.toList
  | .conjunction .and => "and".toList
  | .conjunction .or => "or".toList
  | .returning => "return".toList
  | .among => "in".toList

lemma lexes (k : Keyword) : tokens k.text = [⟨.word, k.text, 0⟩] := by
  cases k with
  | opener block => cases block <;> decide +kernel
  | closing c => cases c <;> decide +kernel
  | conjunction c => cases c <;> decide +kernel
  | returning | among => decide +kernel

lemma noReturn (k : Keyword) : '\r' ∉ k.text := by
  cases k with
  | opener block => cases block <;> decide +kernel
  | closing c => cases c <;> decide +kernel
  | conjunction c => cases c <;> decide +kernel
  | returning | among => decide +kernel

/-- A keyword as a word. -/
def word (k : Keyword) : Word := ⟨k.text, k.lexes, k.noReturn⟩

end Keyword

/-- The words that do not name a command. -/
def reservedWords : List String :=
  ["function", "if", "switch", "for", "while", "begin", "return", "and", "or", "end", "else",
    "case"]

/-- The name of a command. -/
structure CommandName extends Word where
  /-- It is not reserved. -/
  free : ∀ w ∈ reservedWords, text ≠ w.toList

namespace CommandName

variable (c : CommandName)

lemma ofWord?_eq_none : Closing.ofWord? c.text = none := by
  rw [Closing.ofWord?, List.find?_eq_none]
  intro closing _ h
  exact c.free closing.word (by cases closing <;> decide) (beq_iff_eq.1 h).symm

lemma ofOpener?_eq_none : Block.ofOpener? c.text = none := by
  rw [Block.ofOpener?, List.find?_eq_none]
  intro block _ h
  exact c.free block.opener (by cases block <;> decide) (beq_iff_eq.1 h).symm

lemma isReturn_eq_false : isReturn c.text = false :=
  beq_false_of_ne (c.free "return" (by decide))

lemma isConjunction_eq_false : isConjunction c.text = false := by
  rw [isConjunction, Bool.or_eq_false_iff]
  exact ⟨beq_false_of_ne (c.free "and" (by decide)), beq_false_of_ne (c.free "or" (by decide))⟩

end CommandName

/-- The name of a function. -/
structure FunctionName extends Word where
  /-- It does not start with a dash. -/
  noDash : text.head? ≠ some '-'

/-! ## Syntax -/

/-- A command with its arguments. -/
structure Call where
  /-- What is run. -/
  name : CommandName
  /-- What it is run with. -/
  args : List Word

/-- The signs that join a construct to the one before it. -/
inductive Connector
  /-- It runs if the one before succeeded. -/
  | andAnd
  /-- It runs if the one before failed. -/
  | orOr
deriving DecidableEq, Repr

mutual

/-- What may stand where a command may. -/
inductive Construct
  /-- Commands joined by bars; without a second it is a command. -/
  | pipeline (first : Call) (others : List Call)
  /-- The end of a function. -/
  | returning (args : List Word)
  /-- A conditional with further branches. -/
  | ifBlock (condition : Chain) (body : Body) (branches : Branches)
  /-- A choice between cases. -/
  | switchBlock (values : List Word) (cases : Cases)
  /-- A loop over items. -/
  | forLoop (name : Word) (items : List Word) (body : Body)
  /-- A loop under a condition. -/
  | whileLoop (condition : Chain) (body : Body)
  /-- A block of its own. -/
  | beginBlock (body : Body)
  /-- A function. -/
  | function (name : FunctionName) (options : List Word) (body : Body)

/-- A construct, with a conjunction before it or without. -/
inductive Statement
  /-- The construct alone. -/
  | plain (construct : Construct)
  /-- The construct behind a conjunction. -/
  | prefixed (conjunction : Conjunction) (construct : Construct)

/-- A statement and those that are joined to it. -/
inductive Chain
  /-- The first statement and the others. -/
  | of (first : Statement) (links : Links)

/-- Statements with the signs that join them to what stands before. -/
inductive Links
  /-- None. -/
  | nil
  /-- One more. -/
  | cons (connector : Connector) (statement : Statement) (rest : Links)

/-- Chains, each on lines of its own. -/
inductive Body
  /-- None. -/
  | nil
  /-- One more. -/
  | cons (chain : Chain) (rest : Body)

/-- What follows the first body of a conditional. -/
inductive Branches
  /-- Nothing. -/
  | nil
  /-- The last branch. -/
  | otherwise (body : Body)
  /-- A branch with a condition, and what follows it. -/
  | elseIf (condition : Chain) (body : Body) (rest : Branches)

/-- The cases of a choice. -/
inductive Cases
  /-- None. -/
  | nil
  /-- One more. -/
  | cons (patterns : List Word) (body : Body) (rest : Cases)

end

/-! ## Nesting -/

mutual

/-- The greatest number of blocks of the construct that lie in each other. -/
def Construct.nesting : Construct → Nat
  | .pipeline _ _ | .returning _ => 0
  | .ifBlock condition body branches =>
    1 + max condition.nesting (max body.nesting branches.nesting)
  | .switchBlock _ cases => 1 + cases.nesting
  | .forLoop _ _ body | .beginBlock body | .function _ _ body => 1 + body.nesting
  | .whileLoop condition body => 1 + max condition.nesting body.nesting

/-- The same for a statement. -/
def Statement.nesting : Statement → Nat
  | .plain construct | .prefixed _ construct => construct.nesting

/-- The same for a chain. -/
def Chain.nesting : Chain → Nat
  | .of first links => max first.nesting links.nesting

/-- The same for the statements joined to another. -/
def Links.nesting : Links → Nat
  | .nil => 0
  | .cons _ statement rest => max statement.nesting rest.nesting

/-- The same for a body. -/
def Body.nesting : Body → Nat
  | .nil => 0
  | .cons chain rest => max chain.nesting rest.nesting

/-- The same for the branches of a conditional, inside which they lie. -/
def Branches.nesting : Branches → Nat
  | .nil => 0
  | .otherwise body => body.nesting
  | .elseIf condition body rest => max condition.nesting (max body.nesting rest.nesting)

/-- The same for the cases of a choice, inside which they lie. -/
def Cases.nesting : Cases → Nat
  | .nil => 0
  | .cons _ body rest => max body.nesting rest.nesting

end

/-! ## Printing -/

/-- What a program is printed from. -/
inductive Lexeme
  /-- A word. -/
  | word (word : Word)
  /-- A sign that joins statements. -/
  | connector (connector : Connector)
  /-- The sign that joins commands. -/
  | bar
  /-- The end of a line. -/
  | newline

namespace Lexeme

/-- A keyword. -/
def keyword (k : Keyword) : Lexeme := .word k.word

/-- The characters of a lexeme. -/
def text : Lexeme → Text
  | .word w => w.text
  | .connector .andAnd => "&&".toList
  | .connector .orOr => "||".toList
  | .bar => "|".toList
  | .newline => "\n".toList

/-- The lexeme ends a line. -/
def isBreak : Lexeme → Bool
  | .newline => true
  | _ => false

end Lexeme

/-- What stands between a lexeme and the lexemes after it. -/
def gap (l : Lexeme) : List Lexeme → Text
  | [] => []
  | next :: _ => if l.isBreak || next.isBreak then [] else [' ']

/-- Lexemes as a text. -/
def spell : List Lexeme → Text
  | [] => []
  | l :: rest => l.text ++ (gap l rest ++ spell rest)

/-- The lexemes of a command. -/
def Call.lexemes (c : Call) : List Lexeme := .word c.name.toWord :: c.args.map .word

/-- The lexemes of the commands behind the first of a pipeline. -/
def stages (calls : List Call) : List Lexeme := calls.flatMap fun c => .bar :: c.lexemes

/-- The lexemes of a block, from the word that opens it through the word that closes it. -/
def enclose (b : Block) (inner : List Lexeme) : List Lexeme :=
  .keyword (.opener b) :: (inner ++ [.keyword (.closing .blockEnd)])

mutual

/-- The lexemes of a construct. -/
def Construct.lexemes : Construct → List Lexeme
  | .pipeline first others => first.lexemes ++ stages others
  | .returning args => .keyword .returning :: args.map .word
  | .ifBlock condition body branches =>
    enclose .ifBlock (condition.lexemes ++ .newline :: (body.lexemes ++ branches.lexemes))
  | .switchBlock values cases =>
    enclose .switchBlock (values.map .word ++ .newline :: cases.lexemes)
  | .forLoop name items body =>
    enclose .forLoop
      (.word name :: .keyword .among :: (items.map .word ++ .newline :: body.lexemes))
  | .whileLoop condition body =>
    enclose .whileLoop (condition.lexemes ++ .newline :: body.lexemes)
  | .beginBlock body => enclose .beginBlock (.newline :: body.lexemes)
  | .function name options body =>
    enclose .function (.word name.toWord :: (options.map .word ++ .newline :: body.lexemes))

/-- The lexemes of a statement. -/
def Statement.lexemes : Statement → List Lexeme
  | .plain construct => construct.lexemes
  | .prefixed conjunction construct =>
    .keyword (.conjunction conjunction) :: construct.lexemes

/-- The lexemes of a chain. -/
def Chain.lexemes : Chain → List Lexeme
  | .of first links => first.lexemes ++ links.lexemes

/-- The lexemes of the statements joined to another. -/
def Links.lexemes : Links → List Lexeme
  | .nil => []
  | .cons connector statement rest =>
    .connector connector :: (statement.lexemes ++ rest.lexemes)

/-- The lexemes of a body. -/
def Body.lexemes : Body → List Lexeme
  | .nil => []
  | .cons chain rest => chain.lexemes ++ .newline :: rest.lexemes

/-- The lexemes of the branches of a conditional. -/
def Branches.lexemes : Branches → List Lexeme
  | .nil => []
  | .otherwise body => .keyword (.closing .elseBranch) :: .newline :: body.lexemes
  | .elseIf condition body rest =>
    .keyword (.closing .elseBranch) :: .keyword (.opener .ifBlock) ::
      (condition.lexemes ++ .newline :: (body.lexemes ++ rest.lexemes))

/-- The lexemes of the cases of a choice. -/
def Cases.lexemes : Cases → List Lexeme
  | .nil => []
  | .cons patterns body rest =>
    .keyword (.closing .nextCase) :: (patterns.map .word ++ .newline ::
      (body.lexemes ++ rest.lexemes))

end

/-! ## Outlines -/

/-- What a node of a syntax tree shows: its kind, its role, its text and the outlines of the
named nodes in it. -/
inductive Outline
  /-- The outline of a node. -/
  | node (kind : NodeKind) (field : Option Field) (text : Text) (children : List Outline)

/-- The outlines of words. -/
def wordOutlines (field : Field) (words : List Word) : List Outline :=
  words.map fun w => .node (wordKind w.text) (some field) w.text []

/-- The word says that the command `set` only looks at a variable or removes it. -/
def asksOnly : Text → Bool
  | '-' :: '-' :: long => DefinitionScan.readsLong (long.takeWhile (· != '='))
  | '-' :: short => short.any DefinitionScan.readsShort
  | _ => false

/-- Which of its arguments the command `set` takes for the variable, if there are so many: the
first behind its options or, if two dashes end these, the one behind the dashes. If an option
only asks there is none. -/
def setTarget? (args : List Text) : Option Nat :=
  let options := args.takeWhile fun w => wordKind w == .option && w != "--".toList
  if options.any asksOnly then none
  else if args[options.length]? = some "--".toList then some (options.length + 1)
  else some options.length

/-- The outlines of arguments of which the one at a place, if there is one, is a variable. -/
def argumentOutlines (target? : Option Nat) (args : List Word) : List Outline :=
  args.mapIdx fun place w =>
    .node (if target? = some place then .variableDefinition else wordKind w.text)
      (some .argument) w.text []

namespace Call

/-- Which argument is the variable that the command sets. -/
def target? (c : Call) : Option Nat :=
  if c.name.text = "set".toList then setTarget? (c.args.map Word.text) else none

/-- The outline of a command. -/
def outline (field : Option Field) (c : Call) : Outline :=
  .node .command field (spell c.lexemes)
    (.node .word (some .name) c.name.text [] :: argumentOutlines c.target? c.args)

end Call

mutual

/-- The outline of a construct with a role. -/
def Construct.outline (field : Option Field) : Construct → Outline
  | .pipeline first [] => first.outline field
  | .pipeline first (second :: others) =>
    .node .pipeline field (spell (first.lexemes ++ stages (second :: others)))
      (first.outline none :: second.outline none :: others.map (Call.outline none))
  | .returning args =>
    .node .returnStatement field (spell (Construct.returning args).lexemes)
      (wordOutlines .argument args)
  | .ifBlock condition body branches =>
    .node .ifStatement field (spell (Construct.ifBlock condition body branches).lexemes)
      (condition.outlines (some .condition) ++ (body.outlines ++ branches.outlines))
  | .switchBlock values cases =>
    .node .switchStatement field (spell (Construct.switchBlock values cases).lexemes)
      (wordOutlines .argument values ++ cases.outlines)
  | .forLoop name items body =>
    .node .forStatement field (spell (Construct.forLoop name items body).lexemes)
      (.node .word (some .name) name.text [] :: (wordOutlines .argument items ++ body.outlines))
  | .whileLoop condition body =>
    .node .whileStatement field (spell (Construct.whileLoop condition body).lexemes)
      (condition.outlines (some .condition) ++ body.outlines)
  | .beginBlock body =>
    .node .beginStatement field (spell (Construct.beginBlock body).lexemes) body.outlines
  | .function name options body =>
    .node .functionDefinition field (spell (Construct.function name options body).lexemes)
      (.node .word (some .name) name.text [] :: (wordOutlines .option options ++ body.outlines))

/-- The outline of a statement with a role. -/
def Statement.outline (field : Option Field) : Statement → Outline
  | .plain construct => construct.outline field
  | .prefixed conjunction construct =>
    .node .conditionalExecution field
      (spell (Statement.prefixed conjunction construct).lexemes) [construct.outline none]

/-- The outlines of the statements of a chain, each with the role. -/
def Chain.outlines (field : Option Field) : Chain → List Outline
  | .of first links => first.outline field :: links.outlines field

/-- The outlines of joined statements, each with the role. -/
def Links.outlines (field : Option Field) : Links → List Outline
  | .nil => []
  | .cons connector statement rest =>
    .node .conditionalExecution field (spell (.connector connector :: statement.lexemes))
      [statement.outline none] :: rest.outlines field

/-- The outlines of the statements of a body. -/
def Body.outlines : Body → List Outline
  | .nil => []
  | .cons chain rest => chain.outlines none ++ rest.outlines

/-- The outlines of the branches of a conditional. -/
def Branches.outlines : Branches → List Outline
  | .nil => []
  | .otherwise body =>
    [.node .elseClause none (spell (Branches.otherwise body).lexemes) body.outlines]
  | .elseIf condition body rest =>
    .node .elseIfClause none (spell (Branches.elseIf condition body .nil).lexemes)
      (condition.outlines (some .condition) ++ body.outlines) :: rest.outlines

/-- The outlines of the cases of a choice. -/
def Cases.outlines : Cases → List Outline
  | .nil => []
  | .cons patterns body rest =>
    .node .caseClause none (spell (Cases.cons patterns body .nil).lexemes)
      (wordOutlines .argument patterns ++ body.outlines) :: rest.outlines

end

end Program

/-- A program. -/
structure Program where
  /-- Its statements. -/
  body : Program.Body

namespace Program

/-- The text of a program. -/
def print (p : Program) : Text := spell p.body.lexemes

/-- The outline of a program. -/
def outline (p : Program) : Outline := .node .program none p.print p.body.outlines

end Program

end FishScript
