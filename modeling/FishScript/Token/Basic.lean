/-
# Tokens

The vocabulary of fish as far as single tokens know it: words, separators, connectors and
comments. Whether a word is a keyword depends on its place, so no token is one.
-/
import FishScript.Span

namespace FishScript

/-- The kinds of tokens. -/
inductive TokenKind
  /-- Two ampersands. -/
  | andAnd
  /-- Two bars. -/
  | orOr
  /-- One bar. -/
  | pipe
  /-- One ampersand. -/
  | ampersand
  /-- A semicolon. -/
  | semicolon
  /-- A line feed, with a carriage return before it or without. -/
  | newline
  /-- From a hash to the end of the line. -/
  | comment
  /-- Bare text, quoted segments and escapes run together. -/
  | word
  /-- Characters that start no token: an unclosed quote, a stray backslash. -/
  | unexpected
deriving DecidableEq, Repr

namespace TokenKind

/-- The name of a kind in token listings. -/
def name : TokenKind → String
  | .andAnd => "AND_AND"
  | .orOr => "OR_OR"
  | .pipe => "PIPE"
  | .ampersand => "AMPERSAND"
  | .semicolon => "SEMI"
  | .newline => "NEWLINE"
  | .comment => "COMMENT"
  | .word => "WORD"
  | .unexpected => "unexpected character"

/-- Tokens of the kind end a statement. Of unexpected characters nothing is said. -/
def isTerminator? : TokenKind → Option Bool
  | .unexpected => none
  | kind => some (kind == .semicolon || kind == .newline || kind == .ampersand)

end TokenKind

/-- A token of a source. -/
structure Token where
  /-- What it is. -/
  kind : TokenKind
  /-- Its characters. -/
  text : Text
  /-- The offset of its first byte. -/
  start : Nat
deriving DecidableEq, Repr

namespace Token

/-- The offset after the last byte. -/
def stop (t : Token) : Nat := t.start + t.text.byteLength

/-- Where the token stands. -/
def span (t : Token) : Span := ⟨t.start, t.stop⟩

end Token

end FishScript
