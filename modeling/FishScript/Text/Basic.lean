/-
# Texts

A text is the list of its characters. Positions in a text are counted in bytes of its UTF-8
encoding, so a position may fall inside a character; the functions that cut a text at a
position answer `none` there.
-/

namespace FishScript

/-- A text is the list of its characters. -/
abbrev Text := List Char

namespace Text

/-- The number of bytes of the UTF-8 encoding. -/
def byteLength : Text → Nat
  | [] => 0
  | c :: t => c.utf8Size + byteLength t

@[simp] theorem byteLength_nil : byteLength [] = 0 := rfl

@[simp] theorem byteLength_cons (c : Char) (t : Text) :
    byteLength (c :: t) = c.utf8Size + byteLength t := rfl

@[simp] theorem byteLength_append (s t : Text) :
    byteLength (s ++ t) = byteLength s + byteLength t := by
  induction s with
  | nil => simp
  | cons c s ih => simp [ih, Nat.add_assoc]

/-! ## Cutting at byte positions -/

/-- What is left of a text after its first `n` bytes, if a character ends there. -/
def skipBytes? : Nat → Text → Option Text
  | 0, t => some t
  | _ + 1, [] => none
  | n + 1, c :: t => if c.utf8Size ≤ n + 1 then skipBytes? (n + 1 - c.utf8Size) t else none

/-- The first `n` bytes of a text, if a character ends there. -/
def takeBytes? (n : Nat) (t : Text) : Option Text :=
  (skipBytes? n t).map fun rest => t.take (t.length - rest.length)

/-- Position `n` is the start of a character or the end of the text. -/
def isBoundary (n : Nat) (t : Text) : Bool := (skipBytes? n t).isSome

/-- The bytes from `start` up to `stop`, if these are two boundaries in this order. -/
def slice? (start stop : Nat) (t : Text) : Option Text :=
  if stop < start then none else (skipBytes? start t).bind (takeBytes? (stop - start))

/-! ## Order -/

/-- The first text does not come after the second in the order of code points, which is also the
order of the bytes of their encodings. -/
def le : Text → Text → Bool
  | [], _ => true
  | _ :: _, [] => false
  | a :: s, b :: t => a.toNat < b.toNat || (a == b && le s t)

/-! ## White space -/

/-- The characters with the Unicode property White_Space. -/
def isBlank (c : Char) : Bool :=
  let n := c.toNat
  (9 ≤ n && n ≤ 13) || n == 0x20 || n == 0x85 || n == 0xA0 || n == 0x1680
    || (0x2000 ≤ n && n ≤ 0x200A) || n == 0x2028 || n == 0x2029 || n == 0x202F
    || n == 0x205F || n == 0x3000

/-- Drop the white space at the start. -/
def trimStart (t : Text) : Text := t.dropWhile isBlank

/-- Drop the white space at the end. -/
def trimEnd (t : Text) : Text := (t.reverse.dropWhile isBlank).reverse

/-- Drop the white space at both ends. -/
def trim (t : Text) : Text := trimEnd (trimStart t)

/-! ## Lines and pieces -/

/-- A line read so far, last character first, without the carriage return before its line
feed. -/
def closeLine : Text → Text
  | '\r' :: t => t.reverse
  | t => t.reverse

/-- The lines of a text of which `current`, last character first, is already read. -/
def linesFrom (current : Text) : Text → List Text
  | [] => if current.isEmpty then [] else [current.reverse]
  | c :: t => if c = '\n' then closeLine current :: linesFrom [] t else linesFrom (c :: current) t

/-- The lines of a text. A line ends at a line feed, a carriage return before it does not belong
to the line, and nothing after the last line feed is no line. -/
def lines (t : Text) : List Text := linesFrom [] t

/-- The first line, empty for the empty text. -/
def firstLine (t : Text) : Text := (lines t).head?.getD []

/-- The pieces of a text between the characters `sep`, of which `current`, last character
first, is already read. -/
def piecesFrom (sep : Char) (current : Text) : Text → List Text
  | [] => [current.reverse]
  | c :: t =>
    if c = sep then current.reverse :: piecesFrom sep [] t else piecesFrom sep (c :: current) t

/-- The pieces of a text between the characters `sep`, one more than there are such
characters. -/
def pieces (sep : Char) (t : Text) : List Text := piecesFrom sep [] t

/-- The text before and the text after the first character `sep`, if there is one. -/
def cut? (sep : Char) (t : Text) : Option (Text × Text) :=
  match t.dropWhile (· != sep) with
  | [] => none
  | _ :: rest => some (t.takeWhile (· != sep), rest)

/-- What follows `start` at the start of a text. -/
def after? : Text → Text → Option Text
  | [], t => some t
  | _ :: _, [] => none
  | a :: start, c :: t => if a = c then after? start t else none

/-- The first character of a text is `c`. -/
def startsWith (c : Char) (t : Text) : Bool := t.head? == some c

/-- The texts one after the other, with `sep` between neighbours. -/
def joined (sep : Text) (ts : List Text) : Text := (ts.intersperse sep).flatten

/-! ## Numbers -/

/-- The decimal digits of a number. -/
def ofNat (n : Nat) : Text := Nat.toDigits 10 n

/-- The value of a digit of a base up to sixteen. -/
def digitValue? (base : Nat) (c : Char) : Option Nat :=
  let n := c.toNat
  let value :=
    if '0' ≤ c ∧ c ≤ '9' then n - '0'.toNat
    else if 'a' ≤ c ∧ c ≤ 'f' then n - 'a'.toNat + 10
    else if 'A' ≤ c ∧ c ≤ 'F' then n - 'A'.toNat + 10
    else base
  if value < base then some value else none

/-- The number that a run of digits continues, `value` being what is read so far. -/
def digitsFrom? (base value : Nat) : Text → Option Nat
  | [] => some value
  | c :: t => (digitValue? base c).bind fun d => digitsFrom? base (base * value + d) t

/-- The number written by at least one digit and nothing else. -/
def digits? (base : Nat) (t : Text) : Option Nat :=
  if t.isEmpty then none else digitsFrom? base 0 t

/-- The number below 65536 that a text writes in decimal. One leading plus sign and leading
zeros are allowed. -/
def code16? (t : Text) : Option Nat :=
  let body := match t with
    | '+' :: rest => rest
    | _ => t
  (digits? 10 body).filter (· < 65536)

end Text

end FishScript
