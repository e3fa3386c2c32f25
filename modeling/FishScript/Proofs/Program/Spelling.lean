/-
# Reading printed lexemes

Printed lexemes are read as what they are, one terminal for each, at the place where they were
printed (`terminals_spell`). A word keeps its extent between lexemes, because a space or a line
feed ends it in every state in which it is complete.
-/
import Mathlib
import FishScript.Proofs.Program.Syntax
import FishScript.Proofs.Token.Printing

namespace FishScript

namespace Program

/-! ## Words -/

namespace Word

/-- A word is the text of a token. -/
def spelling (w : Word) : Spelling := .word w.text w.lexes

lemma munch_append (w : Word) {rest : Text} (hrest : Stops rest) :
    munch (w.text ++ rest) = ⟨some .word, w.text.length⟩ := by
  refine w.spelling.munch_append fun c hc => ?_
  obtain rfl | rfl := hrest c hc
  · exact .inl ⟨rfl, TokenKind.noConfusion⟩
  · exact .inr ⟨rfl, .inr fun hlast => w.noReturn (List.mem_of_getLast? hlast)⟩

end Word

/-! ## Lexemes -/

namespace Lexeme

/-- The kind of token that a lexeme is read as. -/
def kind : Lexeme → TokenKind
  | .word _ => .word
  | .connector .andAnd => .andAnd
  | .connector .orOr => .orOr
  | .bar => .pipe
  | .newline => .newline

/-- What the grammar sees in a lexeme. -/
def symbol : Lexeme → Symbol
  | .word w => .word w.text
  | .connector .andAnd => .andAnd
  | .connector .orOr => .orOr
  | .bar => .pipe
  | .newline => .newline

lemma text_ne_nil (l : Lexeme) : l.text ≠ [] := by
  cases l with
  | word w => exact w.spelling.text_ne_nil
  | connector c => cases c <;> decide
  | bar | newline => decide

lemma head_not_space (l : Lexeme) (rest : Text) :
    ∀ c, (l.text ++ rest).head? = some c → isSpace c = false := by
  intro c hc
  cases l with
  | word w => exact w.spelling.head_not_space rest c hc
  | connector d => cases d <;> cases hc <;> rfl
  | bar | newline =>
    cases hc
    rfl

lemma munch_text (l : Lexeme) {rest : Text} (h : l.isBreak = true ∨ Stops rest) :
    munch (l.text ++ rest) = ⟨some l.kind, l.text.length⟩ := by
  cases l with
  | word w =>
    obtain h | hrest := h
    · cases h
    · exact w.munch_append hrest
  | connector c => cases c <;> rfl
  | bar =>
    obtain h | hrest := h
    · cases h
    · rcases rest with _ | ⟨c, rest⟩
      · rfl
      · obtain rfl | rfl := hrest c rfl <;> rfl
  | newline => rfl

end Lexeme

lemma stops_gap (l : Lexeme) (rest : List Lexeme) :
    l.isBreak = true ∨ Stops (gap l rest ++ spell rest) := by
  cases hl : l.isBreak with
  | true => exact .inl rfl
  | false =>
    refine .inr fun c hc => ?_
    rcases rest with _ | ⟨next, rest⟩
    · cases hc
    · rw [gap, hl, Bool.false_or] at hc
      cases next with
      | newline =>
        rw [if_pos (show Lexeme.newline.isBreak = true from rfl)] at hc
        cases hc
        exact .inr rfl
      | word w | connector d | bar =>
        rw [if_neg (by simp [Lexeme.isBreak])] at hc
        cases hc
        exact .inl rfl

/-! ## Places -/

/-- A lexeme and where it is printed. -/
structure Placed where
  /-- What is printed. -/
  lexeme : Lexeme
  /-- Where it stands. -/
  span : Span

/-- What the grammar sees in a printed lexeme. -/
def Placed.terminal (x : Placed) : Terminal := ⟨x.lexeme.symbol, x.span⟩

/-- The places of lexemes that are printed from an offset on. -/
def place (offset : Nat) : List Lexeme → List Placed
  | [] => []
  | l :: rest =>
    ⟨l, ⟨offset, offset + l.text.byteLength⟩⟩ ::
      place (offset + l.text.byteLength + (gap l rest).byteLength) rest

lemma tokensFrom_gap (l : Lexeme) (rest : List Lexeme) (offset : Nat) :
    tokensFrom 0 offset (gap l rest ++ spell rest) =
      tokensFrom 0 (offset + (gap l rest).byteLength) (spell rest) := by
  rcases rest with _ | ⟨next, rest⟩
  · rfl
  · rw [gap]
    split
    · rfl
    · exact tokensFrom_space (next.head_not_space _) offset

/-- Printed lexemes are read as what they are and where they are. -/
lemma terminals_spellFrom : ∀ (ls : List Lexeme) (offset : Nat),
    (tokensFrom 0 offset (spell ls)).map Token.terminal = (place offset ls).map Placed.terminal
  | [], _ => rfl
  | l :: rest, offset => by
    have hfirst : Token.terminal ⟨l.kind, l.text, offset⟩ =
        Placed.terminal ⟨l, ⟨offset, offset + l.text.byteLength⟩⟩ := by
      cases l with
      | connector c => cases c <;> rfl
      | word | bar | newline => rfl
    rw [spell, tokensFrom_append l.text_ne_nil (l.munch_text (stops_gap l rest)), tokensFrom_gap,
      List.map_cons, terminals_spellFrom rest, hfirst]
    rfl

theorem terminals_spell (ls : List Lexeme) :
    terminals (spell ls) = (place 0 ls).map Placed.terminal := terminals_spellFrom ls 0

/-! ## Parts of a print -/

lemma map_lexeme_place : ∀ (ls : List Lexeme) (offset : Nat),
    (place offset ls).map Placed.lexeme = ls
  | [], _ => rfl
  | l :: rest, offset => by rw [place, List.map_cons, map_lexeme_place rest]

/-- The two parts of placed lexemes are placed themselves, with nothing between them if the second
is empty. -/
lemma place_eq_append : ∀ {xs ys : List Placed} {ls : List Lexeme} {offset : Nat},
    place offset ls = xs ++ ys → ∃ ls₁ ls₂ between, xs = place offset ls₁ ∧
      ys = place (offset + (spell ls₁ ++ between).byteLength) ls₂ ∧
      spell ls = spell ls₁ ++ (between ++ spell ls₂) ∧ (ls₂ = [] → between = [])
  | [], ys, ls, offset, h => ⟨[], ls, [], rfl, h.symm, rfl, fun _ => rfl⟩
  | x :: xs, ys, [], offset, h => by cases h
  | x :: xs, ys, l :: rest, offset, h => by
    rw [place, List.cons_append] at h
    obtain ⟨rfl, htail⟩ := List.cons.inj h
    obtain ⟨ls₁, ls₂, between, rfl, rfl, hspell, hlast⟩ := place_eq_append htail
    have hrest : rest = ls₁ ++ ls₂ := by
      have hmap := congrArg (List.map Placed.lexeme) htail
      rwa [List.map_append, map_lexeme_place, map_lexeme_place, map_lexeme_place] at hmap
    rcases ls₁ with _ | ⟨next, ls₁⟩
    · -- the gap behind the first lexeme falls between the parts
      refine ⟨[l], ls₂, gap l rest ++ between, rfl, ?_, ?_, ?_⟩
      · simp [spell, gap, Nat.add_assoc]
      · rw [spell, hspell]
        simp [spell, gap]
      · rintro rfl
        rw [hrest, hlast rfl]
        rfl
    · have hgap : gap l rest = gap l (next :: ls₁) := by rw [hrest]; rfl
      have hfirst : spell (l :: next :: ls₁) =
          l.text ++ (gap l (next :: ls₁) ++ spell (next :: ls₁)) := rfl
      refine ⟨l :: next :: ls₁, ls₂, between, ?_, ?_, ?_, hlast⟩
      · rw [hgap]
        rfl
      · rw [hgap, hfirst]
        simp only [Text.byteLength_append, Nat.add_assoc]
      · rw [hfirst, ← hgap]
        simp only [List.append_assoc, ← hspell]
        rfl

/-! ## Lines -/

lemma gap_newline_left (rest : List Lexeme) : gap .newline rest = [] := by
  cases rest <;> rfl

lemma gap_newline_right (l : Lexeme) (rest : List Lexeme) : gap l (.newline :: rest) = [] := by
  rw [gap, show Lexeme.newline.isBreak = true from rfl, Bool.or_true]
  rfl

lemma gap_nil (l : Lexeme) : gap l [] = [] := rfl

lemma gap_append_cons (l next : Lexeme) (ls rest : List Lexeme) :
    gap l (next :: (ls ++ rest)) = gap l (next :: ls) := rfl

lemma spell_append_newline (ls rest : List Lexeme) :
    spell (ls ++ .newline :: rest) = spell ls ++ '\n' :: spell rest := by
  induction ls with
  | nil =>
    have hfirst : spell (.newline :: rest) = '\n' :: (gap .newline rest ++ spell rest) := rfl
    rw [List.nil_append, hfirst, gap_newline_left]
    rfl
  | cons l ls ih =>
    rw [List.cons_append, spell, spell, ih]
    cases ls with
    | nil => simp [gap_newline_right, gap_nil]
    | cons next ls => simp [gap_append_cons]

lemma place_append_newline (ls rest : List Lexeme) (offset : Nat) :
    place offset (ls ++ .newline :: rest) =
      place offset ls ++
        ⟨.newline, ⟨offset + (spell ls).byteLength, offset + (spell ls).byteLength + 1⟩⟩ ::
          place (offset + (spell ls).byteLength + 1) rest := by
  induction ls generalizing offset with
  | nil =>
    have hfirst : place offset (.newline :: rest) = ⟨.newline, ⟨offset, offset + 1⟩⟩ ::
      place (offset + 1 + (gap .newline rest).byteLength) rest := rfl
    rw [List.nil_append, hfirst, gap_newline_left]
    rfl
  | cons l ls ih =>
    rw [List.cons_append, place, place, ih, spell]
    cases ls with
    | nil => simp [gap_newline_right, gap_nil, spell, place]
    | cons next ls => simp [gap_append_cons, Nat.add_assoc]

end Program

end FishScript
