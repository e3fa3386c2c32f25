/-
# Spans and positions

A span is a pair of byte offsets into a source. Nothing forces the two to be in order or inside
the source: the functions below say what they do with a span that is not.
-/
import FishScript.Text.Basic

namespace FishScript

/-- A stretch of a source, in byte offsets. -/
structure Span where
  /-- The offset of the first byte. -/
  start : Nat
  /-- The offset after the last byte. -/
  stop : Nat
deriving DecidableEq, Repr, Inhabited

/-- A place in a source as an editor shows it, both counted from one. -/
structure Position where
  /-- One more than the line feeds before the place. -/
  line : Nat
  /-- One more than the characters between the start of the line and the place. -/
  column : Nat
deriving DecidableEq, Repr

namespace Position

/-- The start of a source. -/
def first : Position := ⟨1, 1⟩

/-- The place after a character. -/
def next (p : Position) (c : Char) : Position :=
  if c = '\n' then ⟨p.line + 1, 1⟩ else ⟨p.line, p.column + 1⟩

/-- The place `bytes` bytes after `p`, in the text that follows `p`. An offset inside a character
counts as the offset after it, one past the end as the end. -/
def advance (bytes : Nat) (p : Position) : Text → Position
  | [] => p
  | c :: t => if bytes = 0 then p else advance (bytes - c.utf8Size) (p.next c) t

/-- The place written as `line:column`. -/
def format (p : Position) : Text := Text.ofNat p.line ++ ':' :: Text.ofNat p.column

end Position

namespace Span

/-- The span without bytes at an offset. -/
def empty (offset : Nat) : Span := ⟨offset, offset⟩

/-- The number of bytes, none when the ends are not in order. -/
def length (s : Span) : Nat := s.stop - s.start

/-- The span has no bytes. -/
def isEmpty (s : Span) : Bool := s.length == 0

/-- The smallest span that covers both. -/
def cover (s t : Span) : Span := ⟨min s.start t.start, max s.stop t.stop⟩

/-- The text of the span, if it is a slice of the source. -/
def text? (s : Span) (source : Text) : Option Text := source.slice? s.start s.stop

/-- The place of the start of the span. -/
def position (s : Span) (source : Text) : Position := .advance s.start .first source

end Span

end FishScript
