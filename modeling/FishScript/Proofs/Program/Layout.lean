/-
# The layout of a script

A body is printed line by line, so the place of a statement can be told from the texts of the
statements before it. The parser, run over a script, makes one phrase of each statement and one
of the end of its line (`parseTerminals_script`).
-/
import Mathlib
import FishScript.Proofs.Program.Branching

namespace FishScript

namespace Flow

open Program

/-- The phrases are the statements of a body that is printed from an offset on, each of them
with the end of its line. -/
inductive Laid : Body → Nat → List Phrase → Prop
  /-- No statements. -/
  | nil {offset : Nat} : Laid .nil offset []
  /-- One more. -/
  | cons {statement : Statement} {rest : Body} {offset : Nat} {p : Phrase} {ps : List Phrase}
      (hp : Shows [p] (place offset statement.construct.lexemes)
        [statement.construct.outline none])
      (hrest : Laid rest (offset + statement.text.byteLength + 1) ps) :
      Laid (.cons statement rest) offset
        (p :: .leaf .terminator none
          ⟨offset + statement.text.byteLength, offset + statement.text.byteLength + 1⟩ :: ps)

/-- The lexemes of a body. -/
def Body.lexemes (b : Body) : List Lexeme := b.toProgram.lexemes

lemma Body.lexemes_cons (statement : Statement) (rest : Body) :
    (Body.cons statement rest).lexemes =
      statement.construct.lexemes ++ .newline :: rest.lexemes := by
  simp [lexemes, toProgram, Program.Body.lexemes, Chain.lexemes, Program.Statement.lexemes,
    Links.lexemes]

lemma Body.place_append : ∀ (b : Body) (ls : List Lexeme) (offset : Nat),
    place offset (b.lexemes ++ ls) =
      place offset b.lexemes ++ place (offset + (spell b.lexemes).byteLength) ls
  | .nil, _, _ => rfl
  | .cons statement rest, ls, offset => by
    rw [lexemes_cons, List.append_assoc, List.cons_append, place_append_newline,
      place_append_newline, rest.place_append, spell_append_newline, List.append_assoc,
      List.cons_append]
    have hlength : offset + (spell statement.construct.lexemes).byteLength + 1 +
        (spell rest.lexemes).byteLength = offset +
          (spell statement.construct.lexemes ++ '\n' :: spell rest.lexemes).byteLength := by
      rw [Text.byteLength_append, Text.byteLength_cons, show Char.utf8Size '\n' = 1 from rfl]
      omega
    rw [hlength]

/-- A body is read line by line. -/
theorem Body.laid : ∀ (b : Body) (offset : Nat) (f : Frame) (holder : Holder)
    (below : List Frame), ∃ ps, Laid b offset ps ∧
      Stack.read ⟨f.extend [] (.statements holder false), below⟩ (place offset b.lexemes) =
        ⟨f.extend ps (.statements holder false), below⟩
  | .nil, _, _, _, _ => ⟨[], .nil, rfl⟩
  | .cons statement rest, offset, f, holder, below => by
    obtain ⟨p, hp, hrests⟩ := statement.construct.reads (place offset statement.construct.lexemes)
      ⟨f.extend [] (.statements holder false), below⟩ none (f.extend [] (.statements holder true))
      below (map_lexeme_place _ _)
      (by simpa using
        (starts_statements (f := f.extend [] (.statements holder false)) rfl below).begins)
    rw [Frame.extend_add, List.nil_append] at hrests
    -- the end of the line completes the statement, and the rest is read from there
    have hnewline := step_newline hrests (.inl rfl) rfl
      ⟨offset + statement.text.byteLength, offset + statement.text.byteLength + 1⟩
    rw [Frame.extend_extend] at hnewline
    obtain ⟨ps, hps, hread⟩ := rest.laid (offset + statement.text.byteLength + 1)
      (f.extend [p, .leaf .terminator none
        ⟨offset + statement.text.byteLength, offset + statement.text.byteLength + 1⟩]
        (.statements holder false)) holder below
    rw [Frame.extend_extend, Frame.extend_extend, List.append_nil] at hread
    refine ⟨_, .cons hp hps, ?_⟩
    rw [lexemes_cons, place_append_newline, Stack.read_append, Stack.read_cons]
    exact (congrArg (Stack.read · _) hnewline).trans hread

/-- The phrase of the function, when the phrases of its body are given and the body is printed
before an offset. -/
def functionPhrase (ps : List Phrase) (stop : Nat) : Phrase :=
  .node .functionDefinition none (.leaf .keyword none ⟨0, 8⟩ :: .leaf .word (some .name) ⟨9, 11⟩ ::
    .leaf .terminator none ⟨11, 12⟩ :: (ps ++ [.leaf .keyword none ⟨stop, stop + 3⟩]))

/-- The phrase of a script. -/
def scriptPhrase (ps : List Phrase) (stop : Nat) : Phrase :=
  .node .program none [functionPhrase ps stop, .leaf .terminator none ⟨stop + 3, stop + 4⟩]

namespace Body

variable (b : Body)

/-- Where the body of a script is printed to its end. -/
def stop : Nat := headerLength + (spell b.lexemes).byteLength

lemma lexemes_script : b.script.body.lexemes =
    [.keyword (.opener .function), .word functionName.toWord] ++ .newline ::
      (b.lexemes ++ ([.keyword (.closing .blockEnd)] ++ .newline :: [])) := by
  simp [script, function, Program.Body.lexemes, Chain.lexemes, Program.Statement.lexemes,
    Construct.lexemes, Links.lexemes, enclose, lexemes]

lemma place_script : place 0 b.script.body.lexemes =
    [⟨.keyword (.opener .function), ⟨0, 8⟩⟩, ⟨.word functionName.toWord, ⟨9, 11⟩⟩,
      ⟨.newline, ⟨11, 12⟩⟩] ++ (place headerLength b.lexemes ++
        [⟨.keyword (.closing .blockEnd), ⟨b.stop, b.stop + 3⟩⟩,
          ⟨.newline, ⟨b.stop + 3, b.stop + 4⟩⟩]) := by
  rw [lexemes_script, place_append_newline, place_append, place_append_newline]
  rfl

/-- The program in which a function is open. -/
def around : Frame := ⟨.program, none, [], .statements .program true⟩

/-- The function whose header is read. -/
def opened : Frame :=
  ⟨.error, none, [.leaf .terminator none ⟨11, 12⟩, .leaf .word (some .name) ⟨9, 11⟩,
    .leaf .keyword none ⟨0, 8⟩], .statements (.block .function) false⟩

lemma read_header : Stack.read .initial [⟨.keyword (.opener .function), ⟨0, 8⟩⟩,
    ⟨.word functionName.toWord, ⟨9, 11⟩⟩, ⟨.newline, ⟨11, 12⟩⟩] = ⟨opened, [around]⟩ := by
  let f : Frame := ⟨.error, none, [.leaf .keyword none ⟨0, 8⟩], Block.function.header⟩
  have hopen : Stack.initial.step (Placed.terminal ⟨.keyword (.opener .function), ⟨0, 8⟩⟩) =
      ⟨f, [around]⟩ :=
    step_opener (starts_statements (f := Stack.initial.top) rfl []).begins .function ⟨0, 8⟩
  have hname : Stack.step ⟨f, [around]⟩ (Placed.terminal ⟨.word functionName.toWord, ⟨9, 11⟩⟩) =
      ⟨f.extend [.leaf .word (some .name) ⟨9, 11⟩] (.functionHeader true), [around]⟩ :=
    Stack.step_take (.functionName rfl rfl functionName.wordKind_eq)
  rw [Stack.read_cons, hopen, Stack.read_cons, hname, Stack.read_cons,
    step_newline (Stack.rests_self (fun _ => True) _ _) trivial rfl]
  rfl

lemma read_footer (ps : List Phrase) (stop : Nat) :
    Stack.read ⟨opened.extend ps (.statements (.block .function) false), [around]⟩
        [⟨.keyword (.closing .blockEnd), ⟨stop, stop + 3⟩⟩,
          ⟨.newline, ⟨stop + 3, stop + 4⟩⟩] =
      ⟨around.extend [functionPhrase ps stop, .leaf .terminator none ⟨stop + 3, stop + 4⟩]
        (.statements .program false), []⟩ := by
  have hend := rests_end (Stack.rests_self IsEnd
    (opened.extend ps (.statements (.block .function) false)) [around]) rfl ⟨stop, stop + 3⟩
  have hphrase : Phrase.node Block.function.kind none
      ((opened.extend ps (.statements (.block .function) false)).phrases.reverse ++
        [.leaf .keyword none ⟨stop, stop + 3⟩]) = functionPhrase ps stop := by
    simp [functionPhrase, opened, Frame.extend, Block.kind]
  rw [Stack.read_cons, Stack.read_cons, step_newline hend (.inl rfl) rfl, ← hphrase]
  rfl

theorem parseTerminals_script : ∃ ps, Laid b headerLength ps ∧
    parseTerminals ((place 0 b.script.body.lexemes).map Placed.terminal) =
      scriptPhrase ps b.stop := by
  obtain ⟨ps, hps, hread⟩ := b.laid headerLength opened (.block .function) [around]
  have hrun : ((place 0 b.script.body.lexemes).map Placed.terminal).foldl Stack.step .initial =
      Stack.read .initial (place 0 b.script.body.lexemes) := by
    rw [Stack.read, List.foldl_map]
  have hopened : opened.extend [] (.statements (.block .function) false) = opened := rfl
  refine ⟨ps, hps, ?_⟩
  rw [hopened] at hread
  rw [parseTerminals, hrun, place_script, Stack.read_append, Stack.read_append, read_header, hread,
    read_footer]
  rfl

end Body

end Flow

end FishScript
