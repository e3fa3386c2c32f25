/-
# From a source to its tokens

At each place the longest stretch of characters that is a token, or is skipped, is taken. No
source is refused: characters that start nothing become a token of the kind `unexpected`, which
reaches as far as they could still have become a word.

A word is a sequence of pieces: a character without a meaning of its own, an escaped character,
a quoted segment, and after the first piece also the sign `>&`, which keeps `2>&1` together. The
pieces are read by a machine with a handful of states, which remembers where the last complete
piece ended.
-/
import FishScript.Token.Basic

namespace FishScript

/-! ## Words -/

/-- What has been read of a word. -/
inductive WordState
  /-- Nothing. -/
  | start
  /-- Complete pieces; `angle` says that the last is a `>` to which a `&` may be joined. -/
  | bare (angle : Bool)
  /-- The backslash of an escaped character. -/
  | escape
  /-- Part of a segment in single quotes. -/
  | single
  /-- Part of a segment in double quotes. -/
  | double
  /-- Part of a segment in double quotes, with a backslash last. -/
  | doubleEscape
deriving DecidableEq, Repr

namespace WordState

/-- The characters read so far are a word. -/
def isComplete : WordState → Bool
  | .bare _ => true
  | _ => false

/-- A character that can only stand in a word when it is quoted or escaped. -/
def isSpecial (c : Char) : Bool :=
  Text.isBlank c || c == ';' || c == '|' || c == '&'

/-- The state after a character that begins a piece. -/
def piece? (c : Char) (angle : Bool) : Option WordState :=
  if c = '\'' then some .single
  else if c = '"' then some .double
  else if c = '\\' then some .escape
  else if isSpecial c then none
  else some (.bare angle)

/-- The state after one more character, if a word can go on with it. -/
def next? (c : Char) : WordState → Option WordState
  | .start => if c = '#' then none else piece? c false
  | .bare angle =>
    if c = '>' then some (.bare true)
    else if c = '&' then (if angle then some (.bare false) else none)
    else piece? c false
  | .escape => if c = '\n' then none else some (.bare false)
  | .single => some (if c = '\'' then .bare false else .single)
  | .double => some (if c = '"' then .bare false else if c = '\\' then .doubleEscape else .double)
  | .doubleEscape => if c = '\n' then none else some .double

end WordState

/-- How far a word reaches, in characters. -/
structure WordExtent where
  /-- The length of the longest word, zero if there is none. -/
  matched : Nat
  /-- The number of characters up to which a word was still possible. -/
  reached : Nat
deriving DecidableEq, Repr

/-- The extent of the word that goes on with a text, `reached` characters being read and the
first `matched` of them being a word. -/
def wordExtentFrom (state : WordState) (matched reached : Nat) : Text → WordExtent
  | [] => ⟨matched, reached⟩
  | c :: t =>
    match state.next? c with
    | none => ⟨matched, reached⟩
    | some state' =>
      wordExtentFrom state' (if state'.isComplete then reached + 1 else matched) (reached + 1) t

/-- The extent of the word at the start of a text. -/
def wordExtent (t : Text) : WordExtent := wordExtentFrom .start 0 0 t

/-! ## The longest match -/

/-- What stands at the start of a text. -/
structure Munch where
  /-- The kind of token, or `none` for characters that are skipped. -/
  kind? : Option TokenKind
  /-- The number of characters. -/
  size : Nat
deriving DecidableEq, Repr

/-- The characters that separate words. -/
def isSpace (c : Char) : Bool := c == ' ' || c == '\t'

/-- A word, or the characters that might have become one. -/
def munchWord (t : Text) : Munch :=
  let extent := wordExtent t
  if extent.matched = 0 then ⟨some .unexpected, max 1 extent.reached⟩
  else ⟨some .word, extent.matched⟩

/-- The longest token or skipped stretch at the start of a text that is not empty. -/
def munch : Text → Munch
  | '&' :: '&' :: _ => ⟨some .andAnd, 2⟩
  | '&' :: _ => ⟨some .ampersand, 1⟩
  | '|' :: '|' :: _ => ⟨some .orOr, 2⟩
  | '|' :: _ => ⟨some .pipe, 1⟩
  | ';' :: _ => ⟨some .semicolon, 1⟩
  | '\n' :: _ => ⟨some .newline, 1⟩
  | '\r' :: '\n' :: _ => ⟨some .newline, 2⟩
  | '\\' :: '\n' :: _ => ⟨none, 2⟩
  | '\\' :: '\r' :: '\n' :: _ => ⟨none, 3⟩
  | '#' :: t => ⟨some .comment, 1 + (t.takeWhile (· != '\n')).length⟩
  | c :: t =>
    if isSpace c then ⟨none, 1 + (t.takeWhile isSpace).length⟩ else munchWord (c :: t)
  | [] => ⟨none, 1⟩

/-- The tokens of a text that starts at `offset`, except that its first `pending` characters
belong to what was read before. -/
def tokensFrom (pending offset : Nat) : Text → List Token
  | [] => []
  | c :: t =>
    match pending with
    | n + 1 => tokensFrom n (offset + c.utf8Size) t
    | 0 =>
      let m := munch (c :: t)
      let rest := tokensFrom (m.size - 1) (offset + c.utf8Size) t
      match m.kind? with
      | some kind => ⟨kind, (c :: t).take m.size, offset⟩ :: rest
      | none => rest

/-- The tokens of a source, in order. -/
def tokens (source : Text) : List Token := tokensFrom 0 0 source

end FishScript
