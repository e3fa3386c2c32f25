/-
# Kinds of nodes and roles of children

The closed vocabulary of syntax trees: what a node stands for, and the role it plays in the node
that holds it.
-/

namespace FishScript

/-- What a node of a syntax tree stands for. -/
inductive NodeKind
  /-- A whole document. -/
  | program
  /-- A name and its arguments. -/
  | command
  /-- Commands joined by bars. -/
  | pipeline
  /-- A construct that runs depending on the one before it. -/
  | conditionalExecution
  /-- A function with its body. -/
  | functionDefinition
  /-- A conditional with its clauses. -/
  | ifStatement
  /-- A further condition of a conditional. -/
  | elseIfClause
  /-- The last branch of a conditional. -/
  | elseClause
  /-- A choice by value with its cases. -/
  | switchStatement
  /-- A case of a choice. -/
  | caseClause
  /-- A loop over items. -/
  | forStatement
  /-- A loop under a condition. -/
  | whileStatement
  /-- A block of its own. -/
  | beginStatement
  /-- The end of a function, with a status. -/
  | returnStatement
  /-- A plain word. -/
  | word
  /-- A word that starts with a dash. -/
  | option
  /-- The variable that a command sets. -/
  | variableDefinition
  /-- A reserved word. -/
  | keyword
  /-- A bar or a connector. -/
  | operator
  /-- The end of a statement. -/
  | terminator
  /-- A comment. -/
  | comment
  /-- Source that fits nowhere. -/
  | error
deriving DecidableEq, Repr

namespace NodeKind

/-- Every kind, in the order of the declaration. -/
def all : List NodeKind :=
  [.program, .command, .pipeline, .conditionalExecution, .functionDefinition, .ifStatement,
    .elseIfClause, .elseClause, .switchStatement, .caseClause, .forStatement, .whileStatement,
    .beginStatement, .returnStatement, .word, .option, .variableDefinition, .keyword, .operator,
    .terminator, .comment, .error]

theorem mem_all (kind : NodeKind) : kind ∈ all := by cases kind <;> decide

/-- The name of a kind in dumps. -/
def name : NodeKind → String
  | .program => "program"
  | .command => "command"
  | .pipeline => "pipeline"
  | .conditionalExecution => "conditional_execution"
  | .functionDefinition => "function_definition"
  | .ifStatement => "if_statement"
  | .elseIfClause => "else_if_clause"
  | .elseClause => "else_clause"
  | .switchStatement => "switch_statement"
  | .caseClause => "case_clause"
  | .forStatement => "for_statement"
  | .whileStatement => "while_statement"
  | .beginStatement => "begin_statement"
  | .returnStatement => "return"
  | .word => "word"
  | .option => "option"
  | .variableDefinition => "variable_definition"
  | .keyword => "keyword"
  | .operator => "operator"
  | .terminator => "terminator"
  | .comment => "comment"
  | .error => "ERROR"

/-- The kind with a given name. -/
def ofName? (name : String) : Option NodeKind := all.find? (·.name == name)

/-- Named nodes carry meaning, the others are punctuation. -/
def isNamed : NodeKind → Bool
  | .keyword | .operator | .terminator | .comment => false
  | _ => true

/-- The named children of such a node are a list of statements. -/
def holdsStatements : NodeKind → Bool
  | .program | .functionDefinition | .ifStatement | .elseIfClause | .elseClause
  | .switchStatement | .caseClause | .forStatement | .whileStatement | .beginStatement
  | .error => true
  | _ => false

/-- A part of a conditional or of a choice that has a body of its own. -/
def isClause : NodeKind → Bool
  | .elseIfClause | .elseClause | .caseClause => true
  | _ => false

end NodeKind

/-- The role of a child in the node that holds it. -/
inductive Field
  /-- The name of a command or a function, the variable of a loop. -/
  | name
  /-- An argument, the value of a choice, a pattern of a case. -/
  | argument
  /-- A word of a function header after the name. -/
  | option
  /-- The condition of a conditional or a loop. -/
  | condition
deriving DecidableEq, Repr

namespace Field

/-- Every role, in the order of the declaration. -/
def all : List Field := [.name, .argument, .option, .condition]

theorem mem_all (field : Field) : field ∈ all := by cases field <;> decide

/-- The label of a role in dumps. -/
def label : Field → String
  | .name => "name"
  | .argument => "argument"
  | .option => "option"
  | .condition => "condition"

/-- The role with a given label. -/
def ofLabel? (label : String) : Option Field := all.find? (·.label == label)

end Field

end FishScript
