/-
# Functions that return and branch

A function body of returns, commands and the blocks that may hold them, with the question that the
rules ask of its statements: does control ever get past it? The body is a part of the syntax of
programs, of which it takes only what neither joins statements nor defines anything, so a body is
printed as programs are and each statement stands on lines of its own.
-/
import Mathlib
import FishScript.Proofs.Program.RoundTrip

namespace FishScript

namespace Flow

open Program

/-! ## Syntax -/

/-- A command that sets no variable. -/
structure PlainCall extends Call where
  /-- It is not the command that sets variables. -/
  noSet : name.text ≠ "set".toList

mutual

/-- A statement of a function body. -/
inductive Statement
  /-- The end of the function. -/
  | returning (args : List Word)
  /-- A command. -/
  | command (call : PlainCall)
  /-- A conditional with further branches. -/
  | conditional (condition : PlainCall) (body : Body) (branches : Branches)
  /-- A choice between cases. -/
  | choice (values : List Word) (cases : Cases)
  /-- A loop. -/
  | loop (condition : PlainCall) (body : Body)
  /-- A block of its own. -/
  | block (body : Body)

/-- Statements, each on lines of its own. -/
inductive Body
  /-- None. -/
  | nil
  /-- One more. -/
  | cons (statement : Statement) (rest : Body)

/-- What follows the first body of a conditional. -/
inductive Branches
  /-- Nothing. -/
  | nil
  /-- The last branch. -/
  | otherwise (body : Body)
  /-- A branch with a condition, and what follows it. -/
  | elseIf (condition : PlainCall) (body : Body) (rest : Branches)

/-- The cases of a choice. -/
inductive Cases
  /-- None. -/
  | nil
  /-- One more. -/
  | cons (patterns : List Word) (body : Body) (rest : Cases)

end

/-! ## Returning -/

mutual

/-- Control never gets past the statement: it is a return, or a conditional whose branches end
with one for all other cases, each of them with such a statement in it. -/
def Statement.alwaysReturns : Statement → Bool
  | .returning _ => true
  | .conditional _ body branches => body.someReturns && branches.allReturn
  | .command _ | .choice _ _ | .loop _ _ | .block _ => false

/-- Control never gets past some statement of the body. -/
def Body.someReturns : Body → Bool
  | .nil => false
  | .cons statement rest => statement.alwaysReturns || rest.someReturns

/-- The branches end with one for all other cases, and control gets to the end of none. -/
def Branches.allReturn : Branches → Bool
  | .nil => false
  | .otherwise body => body.someReturns
  | .elseIf _ body rest => body.someReturns && rest.allReturn

end

/-! ## Scripts -/

/-- A command as a statement of a program. -/
def PlainCall.chain (c : PlainCall) : Chain := .of (.plain (.pipeline c.toCall [])) .nil

mutual

/-- The statement in the syntax of programs. -/
def Statement.construct : Statement → Construct
  | .returning args => .returning args
  | .command call => .pipeline call.toCall []
  | .conditional condition body branches =>
    .ifBlock condition.chain body.toProgram branches.toProgram
  | .choice values cases => .switchBlock values cases.toProgram
  | .loop condition body => .whileLoop condition.chain body.toProgram
  | .block body => .beginBlock body.toProgram

/-- The body in this syntax. -/
def Body.toProgram : Body → Program.Body
  | .nil => .nil
  | .cons statement rest => .cons (.of (.plain statement.construct) .nil) rest.toProgram

/-- The branches in this syntax. -/
def Branches.toProgram : Branches → Program.Branches
  | .nil => .nil
  | .otherwise body => .otherwise body.toProgram
  | .elseIf condition body rest => .elseIf condition.chain body.toProgram rest.toProgram

/-- The cases in this syntax. -/
def Cases.toProgram : Cases → Program.Cases
  | .nil => .nil
  | .cons patterns body rest => .cons patterns body.toProgram rest.toProgram

end

/-- The print of a statement. -/
def Statement.text (s : Statement) : Text := spell s.construct.lexemes

namespace Body

/-- The greatest number of blocks of the body that lie in each other. -/
def nesting (b : Body) : Nat := b.toProgram.nesting

/-- The statements of a body that is printed from an offset on, each with its place. -/
def placed (offset : Nat) : Body → List (Statement × Span)
  | .nil => []
  | .cons statement rest =>
    (statement, ⟨offset, offset + statement.text.byteLength⟩) ::
      rest.placed (offset + statement.text.byteLength + 1)

/-- The statements behind the first past which control never gets. -/
def unreachable (offset : Nat) (b : Body) : List (Statement × Span) :=
  ((b.placed offset).dropWhile fun x => !x.1.alwaysReturns).tail

end Body

/-- The name `_f` of the function. -/
def functionName : FunctionName :=
  ⟨⟨['_', 'f'], by decide +kernel, by decide +kernel⟩, by decide +kernel⟩

/-- A function with the body. -/
def Body.function (b : Body) : Construct := .function functionName [] b.toProgram

/-- A program of the one function. -/
def Body.script (b : Body) : Program := ⟨.cons (.of (.plain b.function) .nil) .nil⟩

/-- Where the first statement of the function is printed. -/
def headerLength : Nat := Text.byteLength "function _f\n".toList

lemma Body.nesting_script (b : Body) : b.script.body.nesting = 1 + b.nesting := by
  simp [script, function, nesting, Program.Body.nesting, Chain.nesting, Statement.nesting,
    Construct.nesting, Links.nesting]

/-! ## Lexemes -/

/-- The lexeme is a word or the end of a line. -/
def IsPlain : Lexeme → Prop
  | .word _ | .newline => True
  | .connector _ | .bar => False

/-- The lexemes are words and ends of lines. -/
def AllPlain (ls : List Lexeme) : Prop := ∀ l ∈ ls, IsPlain l

section Plain

variable {l : Lexeme} {ls ls' : List Lexeme}

@[simp] lemma allPlain_nil : AllPlain [] := List.forall_mem_nil _

@[simp] lemma allPlain_cons : AllPlain (l :: ls) ↔ IsPlain l ∧ AllPlain ls := List.forall_mem_cons

@[simp] lemma allPlain_append : AllPlain (ls ++ ls') ↔ AllPlain ls ∧ AllPlain ls' :=
  List.forall_mem_append

@[simp] lemma allPlain_words (ws : List Word) : AllPlain (ws.map .word) :=
  List.forall_mem_map.2 fun _ _ => trivial

@[simp] lemma isPlain_word (w : Word) : IsPlain (.word w) := trivial

@[simp] lemma isPlain_keyword (k : Keyword) : IsPlain (.keyword k) := trivial

@[simp] lemma isPlain_newline : IsPlain .newline := trivial

@[simp] lemma allPlain_enclose (b : Block) : AllPlain (enclose b ls) ↔ AllPlain ls := by
  simp [enclose]

lemma allPlain_call (c : Call) : AllPlain c.lexemes := by
  simp [Call.lexemes]

@[simp] lemma PlainCall.allPlain (c : PlainCall) : AllPlain c.chain.lexemes := by
  simp [chain, Chain.lexemes, Program.Statement.lexemes, Construct.lexemes, Links.lexemes, stages,
    allPlain_call]

end Plain

mutual

theorem Statement.allPlain : ∀ s : Statement, AllPlain s.construct.lexemes
  | .returning args => by simp [Statement.construct, Construct.lexemes]
  | .command call => by simp [Statement.construct, Construct.lexemes, stages, allPlain_call]
  | .conditional condition body branches => by
    simp [Statement.construct, Construct.lexemes, body.allPlain, branches.allPlain]
  | .choice values cases => by simp [Statement.construct, Construct.lexemes, cases.allPlain]
  | .loop condition body => by simp [Statement.construct, Construct.lexemes, body.allPlain]
  | .block body => by simp [Statement.construct, Construct.lexemes, body.allPlain]

theorem Body.allPlain : ∀ b : Body, AllPlain b.toProgram.lexemes
  | .nil => by simp [Body.toProgram, Program.Body.lexemes]
  | .cons statement rest => by
    simp [Body.toProgram, Program.Body.lexemes, Chain.lexemes, Program.Statement.lexemes,
      Links.lexemes, statement.allPlain, rest.allPlain]

theorem Branches.allPlain : ∀ b : Branches, AllPlain b.toProgram.lexemes
  | .nil => by simp [Branches.toProgram, Program.Branches.lexemes]
  | .otherwise body => by simp [Branches.toProgram, Program.Branches.lexemes, body.allPlain]
  | .elseIf condition body rest => by
    simp [Branches.toProgram, Program.Branches.lexemes, body.allPlain, rest.allPlain]

theorem Cases.allPlain : ∀ c : Cases, AllPlain c.toProgram.lexemes
  | .nil => by simp [Cases.toProgram, Program.Cases.lexemes]
  | .cons patterns body rest => by
    simp [Cases.toProgram, Program.Cases.lexemes, body.allPlain, rest.allPlain]

end

/-! ## Kinds -/

/-- Only reports about returns concern nodes of the kind. -/
def IsTame (kind : NodeKind) : Prop :=
  kind ≠ .error ∧ kind ≠ .variableDefinition ∧ kind ≠ .functionDefinition ∧ kind ≠ .pipeline

instance (kind : NodeKind) : Decidable (IsTame kind) :=
  inferInstanceAs (Decidable (_ ∧ _))

/-- This holds of all kinds in the outlines. -/
def AllTame (os : List Outline) : Prop := ∀ kind ∈ kindsOf os, IsTame kind

section Tame

variable {o : Outline} {os os' : List Outline} {kind : NodeKind} {field : Option Field}
  {text : Text}

@[simp] lemma allTame_nil : AllTame [] := List.forall_mem_nil _

@[simp] lemma allTame_append : AllTame (os ++ os') ↔ AllTame os ∧ AllTame os' := by
  rw [AllTame, kindsOf_append, List.forall_mem_append]
  rfl

@[simp] lemma allTame_cons :
    AllTame (.node kind field text os :: os') ↔ IsTame kind ∧ AllTame os ∧ AllTame os' := by
  rw [AllTame, kindsOf, Outline.kinds, List.cons_append, List.forall_mem_cons,
    List.forall_mem_append]
  rfl

@[simp] lemma allTame_words (field : Field) (ws : List Word) : AllTame (wordOutlines field ws) := by
  induction ws with
  | nil => exact allTame_nil
  | cons w ws ih =>
    refine allTame_cons.2 ⟨?_, allTame_nil, ih⟩
    unfold wordKind
    split <;> decide

lemma PlainCall.target?_eq_none (c : PlainCall) : c.target? = none := if_neg c.noSet

lemma PlainCall.allTame (c : PlainCall) (field : Option Field) :
    AllTame [c.toCall.outline field] := by
  rw [Call.outline, c.target?_eq_none, argumentOutlines_none]
  simp [IsTame]

@[simp] lemma PlainCall.allTame_chain (c : PlainCall) (field : Option Field) :
    AllTame (c.chain.outlines field) := c.allTame field

end Tame

mutual

theorem Statement.allTame : ∀ (s : Statement) (field : Option Field),
    AllTame [s.construct.outline field]
  | .returning args, field => by
    simp [Statement.construct, Construct.outline, IsTame]
  | .command call, field => call.allTame field
  | .conditional condition body branches, field => by
    simp [Statement.construct, Construct.outline, IsTame, body.allTame, branches.allTame]
  | .choice values cases, field => by
    simp [Statement.construct, Construct.outline, IsTame, cases.allTame]
  | .loop condition body, field => by
    simp [Statement.construct, Construct.outline, IsTame, body.allTame]
  | .block body, field => by
    simp [Statement.construct, Construct.outline, IsTame, body.allTame]

theorem Body.allTame : ∀ b : Body, AllTame b.toProgram.outlines
  | .nil => by simp [Body.toProgram, Program.Body.outlines]
  | .cons statement rest => by
    rw [Body.toProgram, Program.Body.outlines, allTame_append]
    exact ⟨statement.allTame none, rest.allTame⟩

theorem Branches.allTame : ∀ b : Branches, AllTame b.toProgram.outlines
  | .nil => by simp [Branches.toProgram, Program.Branches.outlines]
  | .otherwise body => by
    simp [Branches.toProgram, Program.Branches.outlines, IsTame, body.allTame]
  | .elseIf condition body rest => by
    simp [Branches.toProgram, Program.Branches.outlines, IsTame, body.allTame, rest.allTame]

theorem Cases.allTame : ∀ c : Cases, AllTame c.toProgram.outlines
  | .nil => by simp [Cases.toProgram, Program.Cases.outlines]
  | .cons patterns body rest => by
    simp [Cases.toProgram, Program.Cases.outlines, IsTame, body.allTame, rest.allTame]

end

end Flow

end FishScript
